/-
The chunks of a BEAM file with terms in them: the lines, which begin with compact terms,
and the literals, which are terms of the external format on the heap of literals.
-/
import Zeptobeam.BeamChunks

namespace Zeptobeam

namespace BeamFile

open Loading BinaryReader

/-! ## Lines -/

theorem below_readLineRef (fuel : Nat) : Below (readLineRef fuel) (readLineRef (fuel + 1)) := by
  refine (CompactTerm.below_read .asJumpTable fuel).bind fun val => ?_
  split
  next => exact stays_pure ()
  next => exact stays_panic _

theorem answers_readLineRef {s : LoadState} {post : Unit → LoadState → Prop} :
    Answers readLineRef s post ↔
      (∃ e, FuelledState.Comes (CompactTerm.read .asJumpTable) s (.error (.err e))) ∨
        ∃ val s', FuelledState.Comes (CompactTerm.read .asJumpTable) s (.ok (val, s')) ∧
          isLineRef val = true ∧ post () s' := by
  have hdecided := decided_of_below (CompactTerm.below_read .asJumpTable) s
  refine (FuelledState.answers_bind hdecided).trans ?_
  have hval : ∀ val s', (Answers (fun _ => if isLineRef val then pure () else
      panic (.unimplemented "Unexpected data in line info section")) s' post ↔
        isLineRef val = true ∧ post () s') := by
    intro val s'
    split_ifs with h
    · exact FuelledState.answers_pure.trans (and_iff_right h).symm
    · exact iff_of_false (not_answers_panic _) fun hand => h hand.1
  refine (FuelledState.answers_congr hval).trans ?_
  constructor
  · rintro ⟨result, hcomes, hadmits⟩
    match result with
    | .error (.err e) => exact .inl ⟨e, hcomes⟩
    | .error (.panic p) => exact absurd hadmits id
    | .ok (val, s') => exact .inr ⟨val, s', hcomes, hadmits⟩
  · rintro (⟨e, hcomes⟩ | ⟨val, s', hcomes, hadmits⟩)
    · exact ⟨_, hcomes, trivial⟩
    · exact ⟨_, hcomes, hadmits⟩

theorem answers_lineRefs (n : Nat) {s : LoadState} {post : LoadState → Prop} :
    Answers (fun fuel => times n (readLineRef fuel)) s (fun _ => post) ↔
      BrokenLineRef n s ∨ ∃ s', LineRefs n s s' ∧ post s' := by
  induction n generalizing s with
  | zero =>
      refine FuelledState.answers_pure.trans ?_
      simp [BrokenLineRef, LineRefs]
  | succ n ih =>
      refine (FuelledState.answers_bind (decided_of_below below_readLineRef s)).trans ?_
      have htimes : ∀ s', Decided (fun fuel => times n (readLineRef fuel)) s' :=
        decided_of_below fun fuel => (below_readLineRef fuel).times n
      refine (FuelledState.answers_congr fun _ s' =>
        (answers_making (htimes s') _).trans ih).trans ?_
      refine answers_readLineRef.trans ?_
      simp only [BrokenLineRef, LineRefs, or_assoc]
      refine or_congr_right ?_
      constructor
      · rintro ⟨val, between, hcomes, href, hbroken | ⟨s', hrefs, hpost⟩⟩
        · exact .inl ⟨val, between, hcomes, href, hbroken⟩
        · exact .inr ⟨s', ⟨val, between, hcomes, href, hrefs⟩, hpost⟩
      · rintro (⟨val, between, hcomes, href, hbroken⟩ |
          ⟨s', ⟨val, between, hcomes, href, hrefs⟩, hpost⟩)
        · exact ⟨val, between, hcomes, href, .inl hbroken⟩
        · exact ⟨val, between, hcomes, href, .inr ⟨s', hrefs, hpost⟩⟩

theorem LineRefs.keepsFile {n : Nat} {s s' : LoadState} (h : LineRefs n s s') :
    s'.reader.buf = s.reader.buf := by
  induction n generalizing s with
  | zero => rw [show s' = s from h]
  | succ n ih =>
      obtain ⟨val, between, ⟨least, hcomes⟩, _, hrefs⟩ := h
      rw [ih hrefs]
      exact (CompactTerm.below_read .asJumpTable least).keepsFile s val between
        (hcomes least (Nat.le_refl _))

theorem readFilename_of_has {s : LoadState} (h : Has s 2) :
    readFilename s = .ok ((), s.advance (filenameWidth s.reader.rest)) := by
  have hslice : slice 2 s.reader = .ok (s.reader.rest.take 2, s.reader.advance 2) := if_pos h
  have hsize : reading readU16be s = .ok (bigEndian (s.reader.rest.take 2), s.advance 2) :=
    reading_of_ok (StateExcept.bind_eq_of_ok hslice)
  rw [readFilename, StateExcept.bind_eq_of_ok hsize, filenameWidth]
  by_cases hname : Has s (2 + bigEndian (s.reader.rest.take 2))
  · rw [if_pos ((has_iff (.inr (by omega))).mp hname),
      reading_of_ok (readBytes_of_has (has_advance.mpr hname)), ← LoadState.advance_advance]
    rfl
  · rw [if_neg fun hle => hname ((has_iff (.inr (by omega))).mpr hle),
      reading_of_error (readBytes_of_not_has fun hhas => hname (has_advance.mp hhas))]

theorem answers_readFilename {s : LoadState} {post : LoadState → Prop} :
    Answers (fun _ => readFilename) s (fun _ => post) ↔
      Has s 2 ∧ post (s.advance (filenameWidth s.reader.rest)) := by
  by_cases h : Has s 2
  · exact (answers_of_ok (readFilename_of_has h)).trans (and_iff_right h).symm
  · refine iff_of_false (fun hanswers => h ?_) fun hand => h hand.1
    exact (answers_readU16be.mp (answers_bind_const.mp hanswers)).1

theorem answers_filenames (n : Nat) {s : LoadState} {post : List UInt8 → Heap → Prop} :
    Answers (fun _ => times n readFilename) s (leaving post) ↔
      Filenames n s.reader.rest ∧ post s.reader.buf s.heap := by
  induction n generalizing s with
  | zero => exact FuelledState.answers_pure.trans (and_iff_right trivial).symm
  | succ n ih =>
      refine answers_bind_const.trans ?_
      refine (FuelledState.answers_congr fun _ s' =>
        (answers_making (FuelledState.decided_const _ s') _).trans ih).trans ?_
      rw [Filenames, and_assoc, ← has_iff (s := s) (.inr (by omega))]
      refine answers_readFilename.trans ?_
      rw [LoadState.reader_advance, rest_advance]
      rfl

theorem answers_loadLineInfo {s : LoadState} {post : List UInt8 → Heap → Prop} :
    Answers loadLineInfo s (leaving post) ↔
      20 ≤ s.reader.rest.length ∧
        (BrokenLineRef (firstU32 (s.reader.rest.drop 12)) (s.advance 20) ∨ ∃ s',
          LineRefs (firstU32 (s.reader.rest.drop 12)) (s.advance 20) s' ∧
            Filenames (firstU32 (s.reader.rest.drop 16)) s'.reader.rest ∧
            post s.reader.buf s'.heap) := by
  refine (answers_fiveU32be fun _ _ _ _ _ _ => _).trans (and_congr_right fun _ => ?_)
  have hdecided : ∀ n s', Decided (fun fuel => times n (readLineRef fuel)) s' := fun n =>
    decided_of_below fun fuel => (below_readLineRef fuel).times n
  refine (FuelledState.answers_bind (hdecided _ _)).trans ?_
  refine (FuelledState.answers_congr fun _ s' =>
    (answers_making (FuelledState.decided_const _ s') _).trans
      (answers_filenames _)).trans ?_
  refine (answers_lineRefs _).trans (or_congr_right (exists_congr fun s' => ?_))
  refine and_congr_right fun hrefs => ?_
  rw [hrefs.keepsFile]
  rfl

/-! ## Literals -/

section Unwrapped

variable {α : Type} {x : Nat → Loading α} {heap heap' : Heap} {bytes rest : List UInt8} {a : α}
  {s : LoadState}

theorem comes_unwrapped (h : Loading.Ends x heap bytes rest (.returns a heap'))
    (hheap : s.heap = heap) (hreads : s.reader.Reads bytes rest) :
    FuelledState.Comes (fun fuel => unwrapped (x fuel)) s
      (.ok (a, ⟨s.reader.advance bytes.length, heap'⟩)) := by
  obtain ⟨least, h⟩ := h
  refine ⟨least, fun fuel hfuel => ?_⟩
  have hok : x fuel s = .ok (a, ⟨s.reader.advance bytes.length, heap'⟩) :=
    h fuel hfuel s hheap hreads
  simp only [unwrapped, hok]

theorem fails_unwrapped_of_reports (h : Loading.Ends x heap bytes rest .reports)
    (hheap : s.heap = heap) (hreads : s.reader.Reads bytes rest) :
    FuelledState.Fails Stop.IsErr (fun fuel => unwrapped (x fuel)) s := by
  obtain ⟨least, h⟩ := h
  refine ⟨least, fun fuel hfuel => ?_⟩
  obtain ⟨e, he⟩ := h fuel hfuel s hheap hreads
  refine ⟨.panic .unwrap, id, ?_⟩
  simp only [unwrapped, he]

theorem fails_unwrapped_of_panics (h : Loading.Ends x heap bytes rest .panics)
    (hheap : s.heap = heap) (hreads : s.reader.Reads bytes rest) :
    FuelledState.Fails Stop.IsErr (fun fuel => unwrapped (x fuel)) s := by
  obtain ⟨least, h⟩ := h
  refine ⟨least, fun fuel hfuel => ?_⟩
  obtain ⟨p, hp⟩ := h fuel hfuel s hheap hreads
  refine ⟨.panic p, id, ?_⟩
  simp only [unwrapped, hp]

/-- The result of a decoder that stops is unwrapped. -/
theorem fails_unwrapped {reported : Prop} (h : Stops x heap bytes rest reported)
    (hheap : s.heap = heap) (hreads : s.reader.Reads bytes rest) :
    FuelledState.Fails Stop.IsErr (fun fuel => unwrapped (x fuel)) s := by
  by_cases hreported : reported
  · exact fails_unwrapped_of_reports (h.reports hreported) hheap hreads
  · exact fails_unwrapped_of_panics (h.panics hreported) hheap hreads

end Unwrapped

/-- The term that the reader has before it, if it fits on the heap. -/
def LiteralAt (s : LoadState) (t : Etf) (rest : List UInt8) : Prop :=
  s.reader.rest = 131 :: t.bytes ++ rest ∧ t.WellFormed ∧
    t.Fits s.heap.boxHeader s.heap.stackTop s.heap.heapTop

theorem comes_literal {s : LoadState} {t : Etf} {rest : List UInt8} (hs : Has s 0)
    (h : LiteralAt s t rest) :
    FuelledState.Comes (fun fuel => unwrapped (ExtTermFormat.decode fuel)) s
      (.ok (t.place s.heap.boxHeader s.heap.heapTop,
        ⟨s.reader.advance (131 :: t.bytes).length, t.after s.heap⟩)) :=
  comes_unwrapped ((ExtTermFormat.builds_decode h.2.1 s.heap rest).returns h.2.2) rfl ⟨hs, h.1⟩

theorem fails_literal {s : LoadState} (hs : Has s 0) (h : ∀ t rest, ¬ LiteralAt s t rest) :
    FuelledState.Fails Stop.IsErr (fun fuel => unwrapped (ExtTermFormat.decode fuel)) s := by
  have hreads : ∀ {bytes : List UInt8}, s.reader.rest = bytes → s.reader.Reads bytes [] :=
    fun hrest => ⟨hs, by rw [hrest, List.append_nil]⟩
  cases hrest : s.reader.rest with
  | nil =>
      have hend : Stops ExtTermFormat.decode s.heap [] [] False := stops_readU8.bind
      exact fails_unwrapped hend rfl (hreads hrest)
  | cons tag more =>
      by_cases htag : tag = 131
      · subst htag
        rcases parsed more with ⟨t, rest, ht, rfl⟩ | ⟨b, hb, rfl⟩
        · have hfits := fun hfits => h t rest ⟨hrest, ht, hfits⟩
          exact fails_unwrapped_of_panics
            ((ExtTermFormat.builds_decode ht s.heap rest).panics hfits) rfl ⟨hs, hrest⟩
        · exact fails_unwrapped (ExtTermFormat.stops_decode hb s.heap) rfl (hreads hrest)
      · exact fails_unwrapped (ExtTermFormat.stops_otherFormat htag) rfl (hreads hrest)

theorem decided_literal {s : LoadState} (hs : Has s 0) :
    Decided (fun fuel => unwrapped (ExtTermFormat.decode fuel)) s := by
  by_cases h : ∃ t rest, LiteralAt s t rest
  · obtain ⟨t, rest, h⟩ := h
    exact .comes _ (comes_literal hs h)
  · exact .fails (fails_literal hs fun t rest hliteral => h ⟨t, rest, hliteral⟩)

theorem answers_literal {s : LoadState} (hs : Has s 0) {post : Built → LoadState → Prop} :
    Answers (fun fuel => unwrapped (ExtTermFormat.decode fuel)) s post ↔
      ∃ t rest, LiteralAt s t rest ∧
        post (t.place s.heap.boxHeader s.heap.heapTop)
          ⟨s.reader.advance (131 :: t.bytes).length, t.after s.heap⟩ := by
  constructor
  · intro hanswers
    by_cases h : ∃ t rest, LiteralAt s t rest
    · obtain ⟨t, rest, h⟩ := h
      exact ⟨t, rest, h, (FuelledState.answers_of_comes (comes_literal hs h)).mp hanswers⟩
    · have hfails := fails_literal hs fun t rest hliteral => h ⟨t, rest, hliteral⟩
      exact absurd hanswers hfails.not_answers
  · rintro ⟨t, rest, h, hpost⟩
    exact (FuelledState.answers_of_comes (comes_literal hs h)).mpr hpost

theorem LiteralAt.reads {s : LoadState} {t : Etf} {rest : List UInt8} (hs : Has s 0)
    (h : LiteralAt s t rest) :
    (s.reader.advance (131 :: t.bytes).length).Reads [] rest := by
  have hreads : s.reader.Reads (131 :: t.bytes) rest := ⟨hs, h.1⟩
  have hnil : s.reader.Reads (131 :: t.bytes ++ []) rest := by rwa [List.append_nil]
  exact hnil.advance

theorem has_of_comes_readU32be {s s' : LoadState} {n : Nat}
    (h : FuelledState.Comes (fun _ => reading readU32be) s (.ok (n, s'))) : Has s' 0 := by
  have hreturns : Answers (fun _ => reading readU32be) s fun _ _ => True :=
    (FuelledState.answers_of_comes h).mpr trivial
  have hhas : Has s 4 := (answers_readU32be.mp hreturns).1
  have hadvance : Answers (fun _ => reading readU32be) s fun _ s' => Has s' 0 :=
    answers_readU32be.mpr ⟨hhas, has_advance.mpr hhas⟩
  exact (FuelledState.answers_of_comes h).mp hadvance

theorem decided_readLiteral (s : LoadState) : Decided readLiteral s :=
  (FuelledState.decided_const _ s).bind fun _ _ hcomes =>
    decided_literal (has_of_comes_readU32be hcomes)

theorem decided_literals (n : Nat) (s : LoadState) :
    Decided (fun fuel => times n (readLiteral fuel)) s := by
  induction n generalizing s with
  | zero => exact FuelledState.decided_const _ s
  | succ n ih =>
      exact (decided_readLiteral s).bind fun _ s' _ => (ih s').bind fun _ s'' _ =>
        FuelledState.decided_const _ s''

theorem answers_readLiteral {s : LoadState} {post : LoadState → Prop} :
    Answers readLiteral s (fun _ => post) ↔
      Has s 4 ∧ ∃ t rest, LiteralAt (s.advance 4) t rest ∧
        post ⟨(s.advance 4).reader.advance (131 :: t.bytes).length, t.after s.heap⟩ := by
  refine answers_bind_const.trans (answers_readU32be.trans (and_congr_right fun hhas => ?_))
  exact answers_literal (has_advance.mpr hhas)

theorem answers_literals (n : Nat) {s : LoadState} (hs : Has s 0) (post : Heap → Prop) :
    Answers (fun fuel => times n (readLiteral fuel)) s (fun _ s' => post s'.heap) ↔
      ∃ heap', Literals n s.reader.rest s.heap heap' ∧ post heap' := by
  induction n generalizing s with
  | zero =>
      refine FuelledState.answers_pure.trans ?_
      simp [Literals]
  | succ n ih =>
      refine (FuelledState.answers_bind (decided_readLiteral s)).trans ?_
      refine (FuelledState.answers_congr fun _ s' =>
        answers_making (decided_literals n s') _).trans ?_
      refine answers_readLiteral.trans ?_
      have hnext : ∀ t rest, Has s 4 → LiteralAt (s.advance 4) t rest →
          (Answers (fun fuel => times n (readLiteral fuel))
              ⟨(s.advance 4).reader.advance (131 :: t.bytes).length, t.after s.heap⟩
              (fun _ s' => post s'.heap) ↔
            ∃ heap', Literals n rest (t.after s.heap) heap' ∧ post heap') := by
        intro t rest hhas h
        have hreads := h.reads (has_advance.mpr hhas)
        have hiff := ih (s := ⟨(s.advance 4).reader.advance (131 :: t.bytes).length,
          t.after s.heap⟩) hreads.1
        rwa [hreads.2] at hiff
      constructor
      · rintro ⟨hhas, t, rest, h, hanswers⟩
        obtain ⟨heap', hliterals, hpost⟩ := (hnext t rest hhas h).mp hanswers
        exact ⟨heap', ⟨t, rest, (has_iff (.inr (by omega))).mp hhas, by simpa using h.1, h.2.1,
          h.2.2, hliterals⟩, hpost⟩
      · rintro ⟨heap', ⟨t, rest, hlong, hrest, hwf, hfits, hliterals⟩, hpost⟩
        have hhas : Has s 4 := (has_iff (.inr (by omega))).mpr hlong
        have h : LiteralAt (s.advance 4) t rest := ⟨by simpa using hrest, hwf, hfits⟩
        exact ⟨hhas, t, rest, h, (hnext t rest hhas h).mpr ⟨heap', hliterals, hpost⟩⟩

section Reader

variable {α : Type} {x : Nat → Loading α} {bytes : List UInt8} {s : LoadState}

/-- What a result from other bytes is from the reader. -/
def leavingReader (s : LoadState) : Except Stop (α × LoadState) → Except Stop (α × LoadState)
  | .ok (a, s') => .ok (a, { s with heap := s'.heap })
  | .error stop => .error stop

theorem reader_eq (x : Loading α) :
    reader bytes x s = leavingReader s (x ⟨fromBytes bytes, s.heap⟩) := by
  unfold reader leavingReader
  cases x ⟨fromBytes bytes, s.heap⟩ <;> rfl

theorem comes_reader {result : Except Stop (α × LoadState)}
    (h : FuelledState.Comes x ⟨fromBytes bytes, s.heap⟩ result) :
    FuelledState.Comes (fun fuel => reader bytes (x fuel)) s (leavingReader s result) := by
  obtain ⟨least, h⟩ := h
  exact ⟨least, fun fuel hfuel => (reader_eq (x fuel)).trans (congrArg _ (h fuel hfuel))⟩

theorem fails_reader (h : FuelledState.Fails Stop.IsErr x ⟨fromBytes bytes, s.heap⟩) :
    FuelledState.Fails Stop.IsErr (fun fuel => reader bytes (x fuel)) s := by
  obtain ⟨least, h⟩ := h
  refine ⟨least, fun fuel hfuel => ?_⟩
  obtain ⟨e, he, hx⟩ := h fuel hfuel
  exact ⟨e, he, (reader_eq (x fuel)).trans (congrArg _ hx)⟩

theorem decided_reader (h : Decided x ⟨fromBytes bytes, s.heap⟩) :
    Decided (fun fuel => reader bytes (x fuel)) s := by
  cases h with
  | comes result h => exact .comes _ (comes_reader h)
  | fails h => exact .fails (fails_reader h)

/-- Reads of other bytes leave the reader. -/
theorem answers_reader (h : Decided x ⟨fromBytes bytes, s.heap⟩) {post : LoadState → Prop} :
    Answers (fun fuel => reader bytes (x fuel)) s (fun _ => post) ↔
      Answers x ⟨fromBytes bytes, s.heap⟩ fun _ s' => post { s with heap := s'.heap } := by
  cases h with
  | comes result h =>
      refine (FuelledState.answers_of_comes (comes_reader h)).trans ?_
      refine Iff.trans ?_ (FuelledState.answers_of_comes h).symm
      cases result <;> rfl
  | fails h => exact iff_of_false (fails_reader h).not_answers h.not_answers

end Reader

theorem rest_fromBytes (bytes : List UInt8) : (fromBytes bytes).rest = bytes := rfl

theorem decided_countedLiterals (s : LoadState) :
    Decided (fun fuel => reading readU32be >>= fun count => times count (readLiteral fuel)) s :=
  (FuelledState.decided_const _ s).bind fun count s' _ => decided_literals count s'

theorem answers_decodeLiterals {data : List UInt8} {s : LoadState}
    {post : List UInt8 → Heap → Prop} :
    Answers (fun fuel => decodeLiterals fuel data) s (leaving post) ↔
      4 ≤ data.length ∧ ∃ heap', Literals (firstU32 data) (data.drop 4) s.heap heap' ∧
        post s.reader.buf heap' := by
  refine (answers_reader (decided_countedLiterals _)).trans ?_
  refine answers_bind_const.trans (answers_readU32be.trans ?_)
  rw [has_iff (.inr (by omega)), rest_fromBytes]
  refine and_congr_right fun hlong => ?_
  have hhas : Has ((⟨fromBytes data, s.heap⟩ : LoadState).advance 4) 0 :=
    has_advance.mpr ((has_iff (.inr (by omega))).mpr hlong)
  exact answers_literals (firstU32 data) hhas (post s.reader.buf)

theorem answers_inflateLiterals {inflate : List UInt8 → Option (List UInt8)} {uncompSz : Nat}
    {rawData : List UInt8} {s : LoadState} {post : List UInt8 → LoadState → Prop} :
    Answers (fun _ => inflateLiterals inflate uncompSz rawData) s post ↔
      ∃ data, literalData inflate uncompSz rawData = some data ∧ post data s := by
  unfold inflateLiterals literalData
  split_ifs with hplain
  · exact FuelledState.answers_pure.trans (by simp)
  · cases inflate rawData with
    | none => exact iff_of_false (not_answers_panic _) (by simp)
    | some inflated =>
        dsimp only
        split_ifs with hlength
        · exact FuelledState.answers_pure.trans (by simp [Option.filter, hlength])
        · exact iff_of_false (not_answers_panic _) (by simp [Option.filter, hlength])

theorem answers_loadLiterals {inflate : List UInt8 → Option (List UInt8)} {chunkSz : Nat}
    {s : LoadState} {post : List UInt8 → Heap → Prop} :
    Answers (fun fuel => loadLiterals inflate fuel chunkSz) s (leaving post) ↔
      4 ≤ chunkSz ∧ chunkSz ≤ s.reader.rest.length ∧ ∃ data,
        literalData inflate (firstU32 s.reader.rest)
            ((s.reader.rest.drop 4).take (chunkSz - 4)) = some data ∧
          4 ≤ data.length ∧ ∃ heap', Literals (firstU32 data) (data.drop 4) s.heap heap' ∧
            post s.reader.buf heap' := by
  have hrest : (s.advance 4).reader.rest = s.reader.rest.drop 4 := rest_advance _ _
  have hdata : ∀ data,
      (Answers (fun fuel => decodeLiterals fuel data) ((s.advance 4).advance (chunkSz - 4))
          (leaving post) ↔
        4 ≤ data.length ∧ ∃ heap', Literals (firstU32 data) (data.drop 4) s.heap heap' ∧
          post s.reader.buf heap') := fun _ => answers_decodeLiterals
  refine answers_bind_const.trans (answers_readU32be.trans ?_)
  constructor
  · rintro ⟨_, hanswers⟩
    obtain ⟨hsize, hanswers⟩ := answers_usizeSub.mp (answers_bind_const.mp hanswers)
    obtain ⟨hhas, hanswers⟩ := answers_unwrap_readBytes.mp (answers_bind_const.mp hanswers)
    obtain ⟨data, hliteral, hanswers⟩ :=
      answers_inflateLiterals.mp (answers_bind_const.mp hanswers)
    rw [has_advance, Nat.add_sub_cancel' hsize, has_iff (.inr (by omega))] at hhas
    rw [hrest] at hliteral
    exact ⟨hsize, hhas, data, hliteral, (hdata data).mp hanswers⟩
  · rintro ⟨hsize, hlong, data, hliteral, hanswers⟩
    have hfirst : Has s 4 := (has_iff (.inr (by omega))).mpr (by omega)
    have hhas : Has (s.advance 4) (chunkSz - 4) := by
      rw [has_advance, Nat.add_sub_cancel' hsize, has_iff (.inr (by omega))]
      exact hlong
    rw [← hrest] at hliteral
    refine ⟨hfirst, answers_bind_const.mpr (answers_usizeSub.mpr ⟨hsize, ?_⟩)⟩
    refine answers_bind_const.mpr (answers_unwrap_readBytes.mpr ⟨hhas, ?_⟩)
    refine answers_bind_const.mpr (answers_inflateLiterals.mpr ⟨data, hliteral, ?_⟩)
    exact (hdata data).mpr hanswers

theorem decided_loadLiterals {inflate : List UInt8 → Option (List UInt8)} {chunkSz : Nat}
    (s : LoadState) : Decided (fun fuel => loadLiterals inflate fuel chunkSz) s := by
  have hdecode : ∀ data s', Decided (fun fuel => decodeLiterals fuel data) s' :=
    fun _ _ => decided_reader (decided_countedLiterals _)
  exact (FuelledState.decided_const _ s).bind fun _ s₁ _ =>
    (FuelledState.decided_const _ s₁).bind fun _ s₂ _ =>
      (FuelledState.decided_const _ s₂).bind fun _ s₃ _ =>
        (FuelledState.decided_const _ s₃).bind fun data s₄ _ => hdecode data s₄

theorem decided_loadLineInfo (s : LoadState) : Decided loadLineInfo s := by
  have hrefs : ∀ n s', Decided (fun fuel => times n (readLineRef fuel)) s' := fun n =>
    decided_of_below fun fuel => (below_readLineRef fuel).times n
  exact (FuelledState.decided_const _ s).bind fun _ s₁ _ =>
    (FuelledState.decided_const _ s₁).bind fun _ s₂ _ =>
      (FuelledState.decided_const _ s₂).bind fun _ s₃ _ =>
        (FuelledState.decided_const _ s₃).bind fun _ s₄ _ =>
          (FuelledState.decided_const _ s₄).bind fun _ s₅ _ =>
            (hrefs _ s₅).bind fun _ s₆ _ => FuelledState.decided_const _ s₆

end BeamFile

end Zeptobeam
