/-
`bs_create_bin` on segments that it can size and write: the sizing pass adds up the sizes,
and every step of the writing pass puts the bits of its segment at the offset.
-/
import Zeptobeam.BinarySegments

namespace Zeptobeam

namespace Building

open BitString BitsPaste ExceptState

variable {debug hasFail : Bool} {s st : BuildProcess} {dst : Reg}
  {binaries : List ProcessHeapBinary} {bin : ProcessHeapBinary} {data : List UInt8}
  {addr offset size total : Nat}

/-! ## Steps -/

theorem run_lift_ok {α : Type} {result : Except BuildStop α} {a : α} (h : result = .ok a)
    (s : BuildProcess) : run (lift result) s = (.ok a, s) := by
  rw [h]
  rfl

theorem run_getBinary (h : s.binaries[addr]? = some bin) :
    run (getBinary addr) s = (.ok bin, s) := by
  rw [getBinary, run_bind_ok (run_get s), h]
  rfl

theorem run_load {src : BuildTerm} (h : Loads s src) :
    run (load src) s = (.ok (operand s src), s) := by
  rw [load, run_bind_ok (run_get s)]
  cases src with
  | register r =>
      cases r with
      | x n =>
          have hn : n < s.x.length := h
          simp only [operand, List.getElem?_eq_getElem hn, Option.elim_some, Option.getD_some]
          rfl
      | y n =>
          have hn : n + 1 < s.stack.length := h
          simp only [operand, List.getElem?_eq_getElem hn, Option.elim_some, Option.getD_some,
            if_neg (show ¬ s.stack.length < n + 1 by omega)]
          rfl
      | float n => exact h.elim
  | _ => rfl

theorem run_storeValue (val : BuildTerm) (h : Takes s dst) :
    run (storeValue val dst) s = (.ok (), put s val dst) := by
  rw [storeValue, run_bind_ok (run_get s)]
  cases dst with
  | x n =>
      have hn : n < s.x.length := h
      simp only [if_pos hn]
      rfl
  | y n =>
      have hn : n + 1 < s.stack.length := h
      simp only [if_neg (show ¬ s.stack.length < n + 1 by omega), if_pos hn]
      rfl
  | float n => exact h.elim

theorem modify_last (binaries : List ProcessHeapBinary) (bin : ProcessHeapBinary)
    (f : ProcessHeapBinary → ProcessHeapBinary) :
    (binaries ++ [bin]).modify binaries.length f = binaries ++ [f bin] := by
  induction binaries with
  | nil => rfl
  | cons first binaries ih =>
      rw [List.cons_append, List.length_cons, List.modify_succ_cons, ih, List.cons_append]

theorem run_setData (hlast : st.binaries = binaries ++ [bin]) (data : List UInt8) :
    run (setData (.procHeap binaries.length) data) st =
      (.ok (), { st with binaries := binaries ++ [{ bin with data }] }) := by
  have hmodify := modify_last binaries bin fun b => { b with data }
  rw [← hlast] at hmodify
  change (Except.ok (), { st with binaries := st.binaries.modify binaries.length _ }) = _
  rw [hmodify]

theorem getElem?_last : (binaries ++ [bin])[binaries.length]? = some bin := by simp

theorem getElem?_before (h : binaries[addr]? = some bin) (other : ProcessHeapBinary) :
    (binaries ++ [other])[addr]? = some bin := by
  rw [List.getElem?_append_left (List.getElem?_eq_some_iff.mp h).1, h]

theorem run_putBinary (debug : Bool) {sizeOrAll : SizeOrAll}
    (hlast : st.binaries = binaries ++ [⟨total, data⟩])
    (hsrc : binaries[addr]? = some bin) (hbin : bin.WellFormed)
    (hsize : sizeOrAll = .bits size ∨ sizeOrAll = .all ∧ size = bin.size)
    (hle : size ≤ bin.size) (hroom : offset + size ≤ total) (htotal : total ≤ 512)
    (hlength : data.length = byteSizeRoundedUp total) (hplaced : BinaryPlaced offset size) :
    ∃ data', run (putBinary debug (.procHeap addr) sizeOrAll (.procHeap binaries.length) offset)
        st = (.ok size, { st with binaries := binaries ++ [⟨total, data'⟩] }) ∧
      Puts data data' offset ((bits bin.data).take size) := by
  have hsrcIn : st.binaries[addr]? = some bin := by
    rw [hlast]
    exact getElem?_before hsrc _
  have hdstIn : st.binaries[binaries.length]? = some ⟨total, data⟩ := by
    rw [hlast]
    exact getElem?_last
  have hne : BinaryRef.procHeap addr ≠ .procHeap binaries.length := by
    intro heq
    have hlt := (List.getElem?_eq_some_iff.mp hsrc).1
    rw [BinaryRef.procHeap.inj heq] at hlt
    exact Nat.lt_irrefl _ hlt
  have hsrcLength : size ≤ 8 * bin.data.length := by
    rw [hbin]
    unfold byteSizeRoundedUp
    omega
  have hdstLength : offset + size ≤ 8 * data.length := by
    rw [hlength]
    unfold byteSizeRoundedUp
    omega
  -- the copy
  obtain ⟨data', hcopy, hputs⟩ : ∃ data', (if lastByteBits offset = 0 then
        copyBitsFromOffset0BytealignedDst bin.data size data offset
      else copyBits debug bin.data 0 data offset size) = .ok data' ∧
      Puts data data' offset ((bits bin.data).take size) := by
    unfold lastByteBits
    by_cases hzero : size = 0
    · subst hzero
      refine ⟨data, ?_, by rw [List.take_zero]; exact Puts.nil data offset⟩
      split
      · rfl
      · rfl
    · rcases hplaced.resolve_left hzero with ⟨hoffset, hwhole⟩ | ⟨hpos, hlt, hover⟩
      · rw [if_pos (Nat.mod_eq_zero_of_dvd hoffset)]
        exact copyBitsFromOffset0_of_aligned hoffset hwhole hsrcLength hdstLength
      · rw [if_neg (by omega)]
        exact copyBits_of_fit hlt hover (by omega) hsrcLength hdstLength
  refine ⟨data', ?_, hputs⟩
  have hcount : run (sizeToCopy (.procHeap addr) sizeOrAll) st = (.ok size, st) := by
    rcases hsize with rfl | ⟨rfl, rfl⟩
    · rfl
    · rw [sizeToCopy, getBitSize, run_bind_ok (run_getBinary hsrcIn)]
      rfl
  have hdstSize : run (getBitSize (.procHeap binaries.length)) st = (.ok total, st) := by
    rw [getBitSize, run_bind_ok (run_getBinary hdstIn)]
    rfl
  have hsrcData : run (getData (.procHeap addr)) st = (.ok bin.data, st) := by
    rw [getData, run_bind_ok (run_getBinary hsrcIn)]
    rfl
  have hdstData : run (getDataMut (.procHeap binaries.length)) st = (.ok data, st) := by
    rw [getDataMut, run_bind_ok (run_getBinary hdstIn)]
    rfl
  have hwords : addWords debug offset size = .ok (offset + size) := addWords_of_lt (by omega)
  rw [putBinary, run_bind_ok hcount, run_bind_ok hdstSize, run_bind_ok (run_lift_ok hwords st),
    if_neg (by omega), run_bind_ok hsrcData, run_bind_ok hdstData, if_neg hne,
    run_bind_ok (run_lift_ok hcopy st), run_bind_ok (run_setData hlast data'), run_pure]

theorem run_putInteger {val : BuildTerm} {flags : BsFlags}
    (hlast : st.binaries = binaries ++ [⟨total, data⟩])
    (hplaced : IntegerPlaced debug flags offset size total val)
    (hroom : offset + size ≤ total) (htotal : total ≤ 512)
    (hlength : data.length = byteSizeRoundedUp total)
    (hclear : ∀ k < 8, offset ≤ 8 * k → k < data.length → data[k]? = some 0) :
    ∃ data' v, run (putInteger debug binaries.length val size offset flags) st =
        (.ok (), { st with binaries := binaries ++ [⟨total, data'⟩] }) ∧
      integerValue val = some v ∧ Puts data data' offset (integerBits flags v size) := by
  have hdstIn : st.binaries[binaries.length]? = some ⟨total, data⟩ := by
    rw [hlast]
    exact getElem?_last
  have hdstData : run (getDataMut (.procHeap binaries.length)) st = (.ok data, st) := by
    rw [getDataMut, run_bind_ok (run_getBinary hdstIn)]
    rfl
  obtain ⟨data', v, hrun, hvalue, hputs⟩ := putInteger_of_placed hplaced hroom htotal hlength
    (fun haligned hlow hin => hclear (offset / 8) (by omega) (by omega) hin)
  refine ⟨data', v, ?_, hvalue, hputs⟩
  rw [putInteger, run_bind_ok hdstData, run_bind_ok (run_lift_ok hrun st)]
  exact run_setData hlast data'

/-! ## The sizing pass -/

variable {seg : Segment} {segs : List Segment} {op : CreateOp} {ops : List CreateOp}

theorem run_getBitSize {ref : BinaryRef} (h : refSize s.binaries ref = some size) :
    run (getBitSize ref) s = (.ok size, s) := by
  cases ref with
  | procHeap addr =>
      obtain ⟨bin, hbin, rfl⟩ := Option.map_eq_some_iff.mp h
      rw [getBitSize, run_bind_ok (run_getBinary hbin)]
      rfl
  | slice orig offset n =>
      cases h
      rfl

theorem run_opBits (hmeans : Means seg op) (hseg : seg.WellFormed s)
    (hfits : SizeFits debug seg) (hsize : segmentSize s seg = some size) :
    run (opBits debug op) s = (.ok size, s) := by
  unfold segmentSize at hsize
  cases op with
  | integer unit flags src n =>
      obtain ⟨-, rfl, -, rfl, hn⟩ := hmeans
      rw [hn] at hsize
      cases hsize
      exact run_lift_ok (withUnit_of_fits (hfits n hn)) s
  | binary unit flags src n =>
      obtain ⟨-, rfl, rfl⟩ := hmeans
      rw [Segment.sizeOrAll]
      cases hn : seg.size with
      | some n =>
          rw [hn] at hsize
          cases hsize
          rfl
      | none =>
          rw [hn] at hsize
          rw [Option.elim_none, opBits, run_bind_ok (run_load hseg.src)]
          split at hsize
          next n hnone => cases hnone
          next ref _ href =>
            rw [href]
            exact run_getBitSize hsize
          next => cases hsize

theorem totalSize_cons (hsize : segmentSize s seg = some size) :
    totalSize s (seg :: segs) = size + totalSize s segs := by
  rw [totalSize, List.map_cons, List.sum_cons, hsize, Option.getD_some]
  rfl

theorem run_sumBits (total : Nat) (hmeans : List.Forall₂ Means segs ops)
    (hsegs : ∀ seg ∈ segs, seg.WellFormed s) (hfits : ∀ seg ∈ segs, SizeFits debug seg)
    (hsizes : ∀ seg ∈ segs, (segmentSize s seg).isSome)
    (hword : total + totalSize s segs < 2 ^ 64) :
    run (sumBits debug ops total) s = (.ok (total + totalSize s segs), s) := by
  induction hmeans generalizing total with
  | nil => rfl
  | @cons seg op segs ops hmeans _ ih =>
      obtain ⟨n, hn⟩ := Option.isSome_iff_exists.mp (hsizes seg List.mem_cons_self)
      have hop := run_opBits hmeans (hsegs seg List.mem_cons_self)
        (hfits seg List.mem_cons_self) hn
      rw [totalSize_cons hn] at hword ⊢
      rw [sumBits, run_bind_ok hop, run_bind_ok (run_lift_ok (addWords_of_lt (by omega)) s),
        ih _ (fun other hother => hsegs other (List.mem_cons_of_mem seg hother))
          (fun other hother => hfits other (List.mem_cons_of_mem seg hother))
          (fun other hother => hsizes other (List.mem_cons_of_mem seg hother)) (by omega),
        Nat.add_assoc]

/-- A source of no size, which is no binary. -/
theorem run_opBits_of_rejected (hmeans : Means seg op) (hseg : seg.WellFormed s)
    (hkind : seg.kind = .binary) (hall : seg.size = none)
    (hnone : termBits s.binaries (operand s seg.src) = none) :
    run (opBits debug op) s = (.error .badarg, s) := by
  cases op with
  | integer unit flags src n =>
      obtain ⟨hinteger, -⟩ := hmeans
      rw [hkind] at hinteger
      cases hinteger
  | binary unit flags src n =>
      obtain ⟨-, rfl, rfl⟩ := hmeans
      rw [Segment.sizeOrAll, hall, Option.elim_none, opBits, run_bind_ok (run_load hseg.src)]
      split
      next ref href =>
        rw [href] at hnone
        cases hnone
      next hempty =>
        rw [hempty] at hnone
        cases hnone
      next => rfl

theorem run_sumBits_of_rejected {pre post : List Segment}
    (hmeans : List.Forall₂ Means (pre ++ seg :: post) ops)
    (hsegs : ∀ other ∈ pre ++ seg :: post, other.WellFormed s)
    (hfits : ∀ other ∈ pre ++ seg :: post, SizeFits debug other)
    (hkind : seg.kind = .binary) (hall : seg.size = none)
    (hnone : termBits s.binaries (operand s seg.src) = none)
    (hsizes : ∀ p ∈ pre, (segmentSize s p).isSome) (hword : total + totalSize s pre < 2 ^ 64) :
    run (sumBits debug ops total) s = (.error .badarg, s) := by
  induction pre generalizing ops total with
  | nil =>
      cases hmeans with
      | cons hseg hrest =>
          rw [sumBits, run_bind_error (run_opBits_of_rejected hseg
            (hsegs seg List.mem_cons_self) hkind hall hnone)]
  | cons first pre ih =>
      cases hmeans with
      | cons hfirst hrest =>
          obtain ⟨n, hn⟩ := Option.isSome_iff_exists.mp (hsizes first List.mem_cons_self)
          have hop := run_opBits hfirst (hsegs first List.mem_cons_self)
            (hfits first List.mem_cons_self) hn
          rw [totalSize_cons hn] at hword
          rw [sumBits, run_bind_ok hop, run_bind_ok (run_lift_ok (addWords_of_lt (by omega)) s)]
          apply ih hrest
          · exact fun other hother => hsegs other (List.mem_cons_of_mem first hother)
          · exact fun other hother => hfits other (List.mem_cons_of_mem first hother)
          · exact fun other hother => hsizes other (List.mem_cons_of_mem first hother)
          · omega

/-! ## The writing pass -/

theorem SameOrder.integerPlaced {flags other : BsFlags} {val : BuildTerm}
    (h : SameOrder flags other) (hplaced : IntegerPlaced debug other offset size total val) :
    IntegerPlaced debug flags offset size total val := by
  cases val with
  | small v =>
      unfold IntegerPlaced at hplaced ⊢
      rwa [h.1, h.2]
  | bignum negative digits =>
      unfold IntegerPlaced at hplaced ⊢
      rwa [h.1]
  | _ => exact hplaced.elim

theorem SameOrder.integerBits_eq {flags other : BsFlags} (h : SameOrder flags other) (v : Int)
    (size : Nat) : integerBits flags v size = integerBits other v size := by
  rw [integerBits, integerBits, h.1, h.2]

theorem segmentsBits_cons {bs : List Bool} (hseg : segmentBits s seg = some bs) :
    segmentsBits s (seg :: segs) = (segmentsBits s segs).map (bs ++ ·) := by
  rw [segmentsBits, segmentsBits, List.mapM_cons, hseg]
  cases List.mapM (segmentBits s) segs <;> rfl

theorem segmentsBits_of_none (hseg : segmentBits s seg = none) :
    segmentsBits s (seg :: segs) = none := by
  rw [segmentsBits, List.mapM_cons, hseg]
  rfl

/-- The registers of a process. -/
def SameRegisters (s st : BuildProcess) : Prop :=
  st.x = s.x ∧ st.stack = s.stack

theorem SameRegisters.loads (h : SameRegisters s st) {src : BuildTerm} (hloads : Loads s src) :
    Loads st src := by
  unfold Loads at hloads ⊢
  rwa [h.1, h.2]

theorem SameRegisters.operand_eq (h : SameRegisters s st) (src : BuildTerm) :
    operand st src = operand s src := by
  unfold operand
  rw [h.1, h.2]

/-- The last binary has other data. -/
def withData (s st : BuildProcess) (total : Nat) (data : List UInt8) : BuildProcess :=
  { st with binaries := s.binaries ++ [⟨total, data⟩] }

/-- The loop goes on with the bits of the segment at the offset. -/
def WritesOn (debug hasFail : Bool) (s st : BuildProcess) (total offset size : Nat)
    (seg : Segment) (op : CreateOp) (ops : List CreateOp) (data : List UInt8) : Prop :=
  ∃ data' bs, run (writeOps debug hasFail s.binaries.length (op :: ops) offset) st =
      run (do writeOps debug hasFail s.binaries.length ops (← lift (addWords debug offset size)))
        (withData s st total data') ∧
    segmentBits s seg = some bs ∧ bs.length = size ∧ Puts data data' offset bs

theorem run_writeOps_integer {unit n : Nat} {flags : BsFlags} {src : BuildTerm}
    (hop : Means seg (.integer unit flags src n)) (hseg : seg.WellFormed s)
    (hfits : SizeFits debug seg) (hsize : segmentSize s seg = some size)
    (hplaced : IntegerPlaced debug (meantFlags seg.flags) offset size total
      (operand s seg.src))
    (hsame : SameRegisters s st) (hlast : st.binaries = s.binaries ++ [⟨total, data⟩])
    (hroom : offset + size ≤ total) (htotal : total ≤ 512)
    (hlength : data.length = byteSizeRoundedUp total)
    (hclear : ∀ k < 8, offset ≤ 8 * k → k < data.length → data[k]? = some 0) :
    WritesOn debug hasFail s st total offset size seg (.integer unit flags src n) ops data := by
  obtain ⟨hkind, rfl, horder, rfl, hn⟩ := hop
  have hload := run_load (hsame.loads hseg.src)
  rw [hsame.operand_eq] at hload
  obtain rfl : size = n * seg.unit := by
    unfold segmentSize at hsize
    rw [hn] at hsize
    exact (Option.some.inj hsize).symm
  obtain ⟨data', v, hput, hvalue, hputs⟩ := run_putInteger hlast
    (horder.integerPlaced hplaced) hroom htotal hlength hclear
  refine ⟨data', _, ?_, ?_, length_integerBits (meantFlags seg.flags) v _, ?_⟩
  · rw [writeOps, run_bind_ok hload,
      run_bind_ok (run_lift_ok (withUnit_of_fits (hfits n hn)) st), run_bind_ok hput]
    rfl
  · unfold segmentBits
    rw [hkind]
    simp only [hvalue, hn, Option.bind_some, Option.map_some]
  · rwa [horder.integerBits_eq] at hputs

/-- The bits of a segment that is the front of a binary, or all of it. -/
theorem segmentBits_of_binary (hkind : seg.kind = .binary) (hbin : s.binaries[addr]? = some bin)
    (hsrc : operand s seg.src = .binary (.procHeap addr)) (hwell : bin.WellFormed)
    (hsize : segmentSize s seg = some size) (hle : size ≤ bin.size) :
    segmentBits s seg = some ((bits bin.data).take size) ∧
      ((bits bin.data).take size).length = size := by
  have hlength : (bits bin.data).length = 8 * byteSizeRoundedUp bin.size := by
    rw [length_bits, hwell]
  unfold byteSizeRoundedUp at hlength
  have hlengthTake : ((bits bin.data).take bin.size).length = bin.size := by
    rw [List.length_take]
    omega
  refine ⟨?_, by rw [List.length_take]; omega⟩
  unfold segmentSize at hsize
  unfold segmentBits
  rw [hkind, hsrc]
  simp only [termBits, refBits, hbin, Option.elim_some, Option.bind_some]
  cases hn : seg.size with
  | none =>
      rw [hn, hsrc] at hsize
      simp only [refSize, hbin, Option.map_some, Option.some.injEq] at hsize
      rw [hsize]
  | some n =>
      rw [hn] at hsize
      cases hsize
      simp only [hlengthTake, if_pos hle, List.take_take, Nat.min_eq_left hle]

theorem run_writeOps_binary {unit : Nat} {flags : BsFlags} {src : BuildTerm} {n : SizeOrAll}
    (hop : Means seg (.binary unit flags src n)) (hseg : seg.WellFormed s)
    (hsize : segmentSize s seg = some size) (hsrc : operand s seg.src = .binary (.procHeap addr))
    (hbin : s.binaries[addr]? = some bin) (hwell : bin.WellFormed) (hle : size ≤ bin.size)
    (hplaced : BinaryPlaced offset size) (hsame : SameRegisters s st)
    (hlast : st.binaries = s.binaries ++ [⟨total, data⟩]) (hroom : offset + size ≤ total)
    (htotal : total ≤ 512) (hlength : data.length = byteSizeRoundedUp total) :
    WritesOn debug hasFail s st total offset size seg (.binary unit flags src n) ops data := by
  obtain ⟨hkind, rfl, rfl⟩ := hop
  have hload := run_load (hsame.loads hseg.src)
  rw [hsame.operand_eq, hsrc] at hload
  have hcopied : seg.sizeOrAll = .bits size ∨ seg.sizeOrAll = .all ∧ size = bin.size := by
    unfold segmentSize at hsize
    unfold Segment.sizeOrAll
    cases hn : seg.size with
    | some n =>
        rw [hn] at hsize
        exact Or.inl (by rw [← Option.some.inj hsize]; rfl)
    | none =>
        rw [hn, hsrc] at hsize
        simp only [refSize, hbin, Option.map_some, Option.some.injEq] at hsize
        exact Or.inr ⟨rfl, hsize.symm⟩
  obtain ⟨data', hput, hputs⟩ := run_putBinary debug hlast hbin hwell hcopied hle
    hroom htotal hlength hplaced
  obtain ⟨hbits, hbitsLength⟩ := segmentBits_of_binary hkind hbin hsrc hwell hsize hle
  refine ⟨data', _, ?_, hbits, hbitsLength, hputs⟩
  rw [writeOps, run_bind_ok hload]
  simp only
  rw [run_bind_ok hput]
  rfl

/-- What is no binary makes the instruction jump. -/
theorem run_writeOps_of_none (debug : Bool) (ops : List CreateOp) (offset : Nat) {unit : Nat}
    {flags : BsFlags} {src : BuildTerm} {n : SizeOrAll}
    (hop : Means seg (.binary unit flags src n)) (hseg : seg.WellFormed s)
    (hnone : termBits s.binaries (operand s seg.src) = none) (hsame : SameRegisters s st) :
    run (writeOps debug true s.binaries.length (.binary unit flags src n :: ops) offset) st =
        (.ok (some .jump), st) ∧ segmentBits s seg = none := by
  obtain ⟨hkind, rfl, rfl⟩ := hop
  have hload := run_load (hsame.loads hseg.src)
  rw [hsame.operand_eq] at hload
  constructor
  · rw [writeOps, run_bind_ok hload]
    split
    next ref href =>
      rw [href] at hnone
      cases hnone
    next hempty =>
      rw [hempty] at hnone
      cases hnone
    next => rfl
  · unfold segmentBits
    rw [hkind]
    simp only [hnone, Option.bind_none]

/-- The data that the writing has come to, or that it jumps with. -/
def WrittenFrom (hasFail : Bool) (s : BuildProcess) (segs : List Segment)
    (data data' : List UInt8) (offset : Nat) (result : Option Dispatch) : Prop :=
  (result = none ∧ ∃ bs, segmentsBits s segs = some bs ∧ bs.length = totalSize s segs ∧
      Puts data data' offset bs) ∨
    result = some .jump ∧ hasFail = true ∧ segmentsBits s segs = none

theorem run_writeOps (debug : Bool) (st : BuildProcess) (data : List UInt8)
    (hbinaries : ∀ bin ∈ s.binaries, bin.WellFormed)
    (hmeans : List.Forall₂ Means segs ops) (hsegs : ∀ seg ∈ segs, seg.WellFormed s)
    (hfits : ∀ seg ∈ segs, SizeFits debug seg)
    (hsizes : ∀ seg ∈ segs, (segmentSize s seg).isSome)
    (hplaced : SegmentsPlaced debug hasFail s total offset segs) (hsame : SameRegisters s st)
    (hlast : st.binaries = s.binaries ++ [⟨total, data⟩])
    (hroom : offset + totalSize s segs ≤ total) (htotal : total ≤ 512)
    (hlength : data.length = byteSizeRoundedUp total)
    (hclear : ∀ k < 8, offset ≤ 8 * k → k < data.length → data[k]? = some 0) :
    ∃ data' result, run (writeOps debug hasFail s.binaries.length ops offset) st =
        (.ok result, withData s st total data') ∧
      WrittenFrom hasFail s segs data data' offset result := by
  induction hmeans generalizing offset data st with
  | nil =>
      refine ⟨data, none, ?_, Or.inl ⟨rfl, [], rfl, rfl, Puts.nil data offset⟩⟩
      rw [withData, ← hlast]
      rfl
  | @cons seg op segs ops hop _ ih =>
      obtain ⟨n, hn⟩ := Option.isSome_iff_exists.mp (hsizes seg List.mem_cons_self)
      have hseg := hsegs seg List.mem_cons_self
      have hfit := hfits seg List.mem_cons_self
      rw [totalSize_cons hn] at hroom
      -- a step, and the rest of the loop after it
      have hgo : WritesOn debug hasFail s st total offset n seg op ops data →
          SegmentsPlaced debug hasFail s total (offset + n) segs →
          ∃ data' result,
            run (writeOps debug hasFail s.binaries.length (op :: ops) offset) st =
              (.ok result, withData s st total data') ∧
            WrittenFrom hasFail s (seg :: segs) data data' offset result := by
        rintro ⟨data1, bs, hstep, hbits, hbsLength, hputs⟩ hrest
        obtain ⟨data', result, hrun, hwritten⟩ := ih (withData s st total data1) data1
          (fun other hother => hsegs other (List.mem_cons_of_mem seg hother))
          (fun other hother => hfits other (List.mem_cons_of_mem seg hother))
          (fun other hother => hsizes other (List.mem_cons_of_mem seg hother))
          hrest hsame rfl
          (by omega) (by rw [hputs.length, hlength])
          (fun k hk hle hin => by
            rw [hputs.after k (by omega), hclear k hk (by omega) (by rwa [hputs.length] at hin)])
        refine ⟨data', result, ?_, ?_⟩
        · rw [hstep, run_bind_ok (run_lift_ok (addWords_of_lt (by omega)) _), hrun]
          rfl
        · unfold WrittenFrom
          rw [segmentsBits_cons hbits, totalSize_cons hn]
          rcases hwritten with ⟨rfl, more, hmore, hmoreLength, hmorePuts⟩ | ⟨rfl, hfail, hnone⟩
          · refine Or.inl ⟨rfl, bs ++ more, by rw [hmore]; rfl, ?_, ?_⟩
            · rw [List.length_append, hbsLength, hmoreLength]
            · apply hputs.trans
              rwa [hbsLength]
          · exact Or.inr ⟨rfl, hfail, by rw [hnone]; rfl⟩
      unfold SegmentsPlaced at hplaced
      rw [hn] at hplaced
      simp only [Option.getD_some] at hplaced
      cases op with
      | integer unit flags src size =>
          rw [hop.1] at hplaced
          obtain ⟨hhere, hrest⟩ := hplaced
          exact hgo (run_writeOps_integer hop hseg hfit hn hhere hsame hlast (by omega) htotal
            hlength hclear) hrest
      | binary unit flags src size =>
          rw [hop.1] at hplaced
          rcases hplaced with ⟨addr, bin, hsrc, hbin, hle, hhere, hrest⟩ | ⟨rfl, hnone⟩
          · exact hgo (run_writeOps_binary hop hseg hn hsrc hbin
              (hbinaries bin (List.mem_of_getElem? hbin)) hle hhere hsame hlast (by omega) htotal
              hlength) hrest
          · obtain ⟨hrun, hbits⟩ := run_writeOps_of_none debug ops
              offset hop hseg hnone hsame
            refine ⟨data, some .jump, ?_, Or.inr ⟨rfl, rfl, segmentsBits_of_none hbits⟩⟩
            rw [hrun, withData, ← hlast]

/-! ## The instruction -/

/-- The process with a new binary of so many bits. -/
def withBinary (debug : Bool) (s : BuildProcess) (size : Nat) : BuildProcess :=
  { s with
    heapTop := s.heapTop + storageSize debug size
    binaries := s.binaries ++ [⟨size, newData debug s size⟩] }

theorem length_newData (debug : Bool) (s : BuildProcess) (size : Nat) :
    (newData debug s size).length = byteSizeRoundedUp size := by
  rw [newData, List.length_map, List.length_range]

theorem newData_clear {k : Nat} (hk : k < 8) (hin : k < byteSizeRoundedUp size) :
    (newData debug s size)[k]? = some 0 := by
  rw [newData, List.getElem?_map, List.getElem?_range hin, Option.map_some, if_pos hk]

theorem run_ensureHeap (s : BuildProcess) {need : Nat} (h : s.heapTop + need ≤ s.stackTop) :
    run (ensureHeap need) s = (.ok (), s) := by
  rw [ensureHeap, run_bind_ok (run_get s)]
  simp only [if_pos h]
  rfl

theorem run_createInto (debug : Bool) (s : BuildProcess) (hpos : 0 < size) (hsize : size ≤ 512)
    (hroom : s.heapTop + storageSize debug size < s.stackTop) :
    run (createInto debug size) s = (.ok s.binaries.length, withBinary debug s size) := by
  have hthreshold : ¬ onheapThreshold < byteSizeRoundedUp size := by
    unfold onheapThreshold byteSizeRoundedUp
    omega
  rw [createInto, if_neg (Nat.ne_of_gt hpos)]
  simp only [if_neg hthreshold]
  rw [run_bind_ok (run_get s)]
  simp only [if_neg (Nat.not_le.mpr hroom)]
  rfl

theorem refBits_of_empty {ref : BinaryRef} (hsize : refSize binaries ref = some 0) :
    refBits binaries ref = [] := by
  cases ref with
  | procHeap addr =>
      obtain ⟨bin, hbin, hzero⟩ := Option.map_eq_some_iff.mp hsize
      rw [refBits, hbin, Option.elim_some, hzero, List.take_zero]
  | slice orig offset n => rw [refBits, Option.some.inj hsize, List.take_zero]

theorem segmentBits_of_empty {bs : List Bool} (hsize : segmentSize s seg = some 0)
    (hbits : segmentBits s seg = some bs) : bs = [] := by
  unfold segmentSize at hsize
  unfold segmentBits at hbits
  cases hkind : seg.kind with
  | integer =>
      rw [hkind] at hbits
      obtain ⟨v, -, hbits⟩ := Option.bind_eq_some_iff.mp hbits
      obtain ⟨n, hn, rfl⟩ := Option.map_eq_some_iff.mp hbits
      rw [hn] at hsize
      rw [Option.some.inj hsize]
      exact integerBits_zero
  | binary =>
      rw [hkind] at hbits
      obtain ⟨all, hall, hbits⟩ := Option.bind_eq_some_iff.mp hbits
      cases hn : seg.size with
      | some n =>
          rw [hn] at hsize hbits
          have hzero : n * seg.unit = 0 := Option.some.inj hsize
          simp only [hzero, Nat.zero_le, if_true, List.take_zero] at hbits
          exact (Option.some.inj hbits).symm
      | none =>
          rw [hn] at hsize hbits
          cases hbits
          split at hsize
          next n hnone => cases hnone
          next ref _ href =>
            rw [href] at hall
            cases hall
            exact refBits_of_empty hsize
          next => cases hsize

theorem segmentsBits_of_empty (h : ∀ seg ∈ segs, segmentSize s seg = some 0 ∧
    (segmentBits s seg).isSome) : segmentsBits s segs = some [] ∧ totalSize s segs = 0 := by
  induction segs with
  | nil => exact ⟨rfl, rfl⟩
  | cons seg segs ih =>
      obtain ⟨hsize, hsome⟩ := h seg List.mem_cons_self
      obtain ⟨bs, hbs⟩ := Option.isSome_iff_exists.mp hsome
      obtain rfl := segmentBits_of_empty hsize hbs
      obtain ⟨hbits, htotal⟩ := ih fun other hother => h other (List.mem_cons_of_mem seg hother)
      rw [segmentsBits_cons hbs, hbits, totalSize_cons hsize, htotal]
      exact ⟨rfl, rfl⟩

theorem segmentsBits_of_mem_none {pre post : List Segment} (hseg : segmentBits s seg = none) :
    segmentsBits s (pre ++ seg :: post) = none := by
  induction pre with
  | nil => exact segmentsBits_of_none hseg
  | cons first pre ih =>
      rw [List.cons_append]
      cases hfirst : segmentBits s first with
      | none => exact segmentsBits_of_none hfirst
      | some bs => rw [segmentsBits_cons hfirst, ih, Option.map_none]

@[simp]
theorem binaries_put (s : BuildProcess) (t : BuildTerm) (dst : Reg) :
    (put s t dst).binaries = s.binaries := by
  cases dst <;> rfl

theorem SameRegisters.put_eq (h : SameRegisters s st) (t : BuildTerm) (dst : Reg) :
    (put st t dst).x = (put s t dst).x ∧ (put st t dst).stack = (put s t dst).stack := by
  cases dst with
  | x n => exact ⟨by simp only [put, h.1], h.2⟩
  | y n => exact ⟨h.1, by simp only [put, h.2]⟩
  | float n => exact h

theorem SameRegisters.takes (h : SameRegisters s st) (hdst : Takes s dst) : Takes st dst := by
  unfold Takes at hdst ⊢
  rwa [h.1, h.2]

/-- The bits of the last binary are stored. -/
theorem constructs_of_puts {bs : List Bool} (hsame : SameRegisters s st)
    (hlast : st.binaries = s.binaries ++ [⟨total, data⟩])
    (hbits : (bits data).take total = bs) :
    Constructs s dst (.ok bs)
      (.ok .next, put st (.binary (.procHeap s.binaries.length)) dst) := by
  obtain ⟨hx, hstack⟩ := hsame.put_eq (.binary (.procHeap s.binaries.length)) dst
  refine ⟨fun addr haddr => ?_, rfl, _, hx, hstack, ?_⟩
  · rw [binaries_put, hlast, List.getElem?_append_left haddr]
  · rw [binaries_put, hlast, termBits, refBits, getElem?_last, Option.elim_some, hbits]

variable {alloc live : Nat} {word : BuildTerm → Nat} {opList : BuildTerm}

theorem bsCreateBin_constructs (hbinaries : ∀ bin ∈ s.binaries, bin.WellFormed)
    (hlists : Lists opList segs) (hsegs : ∀ seg ∈ segs, seg.WellFormed s)
    (hguard : CreateGuard debug hasFail alloc s dst segs) :
    Constructs s dst (meantOr hasFail (segmentsBits s segs))
      (run (bsCreateBin debug word hasFail alloc live dst opList) s) := by
  obtain ⟨hfits, hcases⟩ := hguard
  obtain ⟨ops, hops, hmeans⟩ := parseOps_of_wellFormed word hlists hsegs hfits
  rw [bsCreateBin, run_bind_ok (run_lift_ok hops s)]
  rcases hcases with ⟨rfl, pre, seg, post, rfl, hkind, hall, hnone, hsizes, hword⟩ |
    ⟨hdst, hempty⟩ | ⟨hdst, hsizes, hpos, htotal, hensure, hroom, hplaced⟩
  · have hbits : segmentBits s seg = none := by
      unfold segmentBits
      rw [hkind]
      simp only [hnone, Option.bind_none]
    rw [segmentsBits_of_mem_none hbits, run_bind_error (run_sumBits_of_rejected hmeans hsegs hfits
      hkind hall hnone hsizes (by omega))]
    exact ⟨fun _ _ => rfl, _, rfl, trivial⟩
  · obtain ⟨hbits, hzero⟩ := segmentsBits_of_empty hempty
    have hsum := run_sumBits 0 hmeans hsegs hfits
      (fun seg hseg => by rw [(hempty seg hseg).1]; rfl) (by omega)
    rw [hbits, run_bind_ok hsum, hzero, if_pos rfl, run_bind_ok (run_storeValue .emptyBinary hdst),
      run_pure]
    exact ⟨fun _ _ => by rw [binaries_put], rfl, _, rfl, rfl, rfl⟩
  · have hsum := run_sumBits 0 hmeans hsegs hfits hsizes (by omega)
    rw [Nat.zero_add] at hsum
    obtain ⟨started, hstarted⟩ : ∃ started : BuildProcess, started = { s with live } := ⟨_, rfl⟩
    have hlive : SameRegisters s started := by
      rw [hstarted]
      exact ⟨rfl, rfl⟩
    have hbinaries' : started.binaries = s.binaries := by rw [hstarted]
    have hthreshold : byteSizeRoundedUp (totalSize s segs) ≤ onheapThreshold := by
      unfold onheapThreshold byteSizeRoundedUp
      omega
    have hcreate := run_createInto debug started hpos htotal
      (by rw [hstarted]; exact hroom)
    rw [hbinaries'] at hcreate
    have hensure' := @run_ensureHeap started
      (storageSize debug (totalSize s segs) + alloc) (by rw [hstarted]; exact hensure)
    obtain ⟨data', result, hwrite, hwritten⟩ := run_writeOps debug
      (withBinary debug started (totalSize s segs))
      (newData debug started (totalSize s segs)) hbinaries hmeans hsegs hfits
      hsizes hplaced hlive (by rw [withBinary, hbinaries']) (by omega) htotal
      (length_newData _ _ _) (fun k hk _ hin => newData_clear hk (by rwa [length_newData] at hin))
    have hmodify : run (modify fun s => { s with live } : Building Unit) s =
        (.ok (), started) := by
      rw [hstarted]
      rfl
    rw [run_bind_ok hsum, if_neg (Nat.ne_of_gt hpos), run_bind_ok hmodify]
    simp only [if_pos hthreshold]
    rw [run_bind_ok hensure', run_bind_ok hcreate, run_bind_ok hwrite]
    have hafter : SameRegisters s (withData s (withBinary debug started (totalSize s segs))
        (totalSize s segs) data') := hlive
    rcases hwritten with ⟨rfl, bs, hbits, hlength, hputs⟩ | ⟨rfl, rfl, hbits⟩
    · have htake := hputs.take (Nat.zero_le _)
      rw [Nat.zero_add, List.take_zero, List.nil_append, hlength] at htake
      simp only
      rw [hbits, run_bind_ok (run_storeValue _ (hafter.takes hdst)), run_pure]
      exact constructs_of_puts hafter rfl htake
    · rw [hbits]
      exact ⟨fun addr haddr => List.getElem?_append_left haddr, rfl⟩

end Building

end Zeptobeam
