/-
The walk through the chunks of a BEAM file: on which files it ends with what was loaded
or with an error, and on which it panics.
-/
import Zeptobeam.BeamTerms

namespace Zeptobeam

namespace BeamFile

open Loading BinaryReader

section Chunk

variable {inflate : List UInt8 → Option (List UInt8)} {file : BeamFile} {chunkH : String}
  {chunkSz : Nat} {s : LoadState} {post : List UInt8 → Heap → Prop}

/-- A chunk that leaves the heap is reported, or is loaded. -/
theorem reports_or_loads {P B N : Prop} {heap : Heap} {left : Heap → Prop} :
    P ∧ (B ∨ N ∧ left heap) ↔ P ∧ B ∨ ∃ heap', (P ∧ N ∧ heap' = heap) ∧ left heap' := by
  constructor
  · rintro ⟨hp, hb | ⟨hn, hleft⟩⟩
    · exact .inl ⟨hp, hb⟩
    · exact .inr ⟨heap, ⟨hp, hn, rfl⟩, hleft⟩
  · rintro (⟨hp, hb⟩ | ⟨_, ⟨hp, hn, rfl⟩, hleft⟩)
    · exact ⟨hp, .inl hb⟩
    · exact ⟨hp, .inr ⟨hn, hleft⟩⟩

theorem loads_only {N : Prop} {heap : Heap} {left : Heap → Prop} :
    N ∧ left heap ↔ False ∨ ∃ heap', (N ∧ heap' = heap) ∧ left heap' := by
  constructor
  · exact fun h => .inr ⟨heap, ⟨h.1, rfl⟩, h.2⟩
  · rintro (hfalse | ⟨_, ⟨hn, rfl⟩, hleft⟩)
    · exact hfalse.elim
    · exact ⟨hn, hleft⟩

theorem answers_loadChunk (hne : s.reader.buf ≠ []) :
    Answers (fun fuel => loadChunk inflate fuel file chunkH chunkSz) s (leaving post) ↔
      Reports chunkH s ∨
        ∃ heap', Loads inflate chunkH chunkSz s heap' ∧ post s.reader.buf heap' := by
  have hconst : ∀ {α : Type} (x : Loading α), Decided (fun _ => x) s :=
    fun x => FuelledState.decided_const x s
  have hskip : ∀ {α : Type} (a : α),
      Answers (fun _ => reading (skip chunkSz) >>= fun _ => pure a) s (leaving post) ↔
        False ∨ ∃ heap', heap' = s.heap ∧ post s.reader.buf heap' := by
    intro α a
    refine (answers_making (hconst _) _).trans (answers_skip.trans ?_)
    simp [hne]
  unfold loadChunk
  split
  all_goals simp only [Reports, Loads]
  case h_1 =>
    exact (answers_making (hconst _) _).trans (answers_loadAtomsLatin1.trans reports_or_loads)
  case h_2 =>
    refine (answers_making (hconst _) _).trans (answers_loadAtomsUtf8.trans ?_)
    rw [← and_assoc]
    refine reports_or_loads.trans ?_
    simp only [and_assoc]
  case h_3 =>
    refine (answers_making (hconst _) _).trans (answers_loadCode.trans ?_)
    constructor
    · rintro ⟨hlong, hopcode | ⟨hopcode, hsize, hcode, hpost⟩⟩
      · exact .inl ⟨hlong, hopcode⟩
      · exact .inr ⟨s.heap, ⟨hlong, hopcode, hsize, hcode, rfl⟩, hpost⟩
    · rintro (⟨hlong, hopcode⟩ | ⟨_, ⟨hlong, hopcode, hsize, hcode, rfl⟩, hpost⟩)
      · exact ⟨hlong, .inl hopcode⟩
      · exact ⟨hlong, .inr ⟨hopcode, hsize, hcode, hpost⟩⟩
  case h_4 =>
    exact (answers_making (hconst _) _).trans ((answers_table goes_readExport).trans loads_only)
  case h_5 =>
    exact (answers_making (hconst _) _).trans ((answers_table goes_readFun).trans loads_only)
  case h_6 =>
    exact (answers_making (hconst _) _).trans ((answers_table goes_readImport).trans loads_only)
  case h_7 =>
    refine (answers_making (decided_loadLineInfo s) _).trans (answers_loadLineInfo.trans ?_)
    constructor
    · rintro ⟨hlong, hbroken | ⟨s', hrefs, hnames, hpost⟩⟩
      · exact .inl ⟨hlong, hbroken⟩
      · exact .inr ⟨s'.heap, ⟨hlong, s', hrefs, hnames, rfl⟩, hpost⟩
    · rintro (⟨hlong, hbroken⟩ | ⟨_, ⟨hlong, s', hrefs, hnames, rfl⟩, hpost⟩)
      · exact ⟨hlong, .inl hbroken⟩
      · exact ⟨hlong, .inr ⟨s', hrefs, hnames, hpost⟩⟩
  case h_8 =>
    refine (answers_making (decided_loadLiterals s) _).trans (answers_loadLiterals.trans ?_)
    constructor
    · rintro ⟨hsize, hlong, data, hdata, hcount, heap', hliterals, hpost⟩
      exact .inr ⟨heap', ⟨hsize, hlong, data, hdata, hcount, hliterals⟩, hpost⟩
    · rintro (hfalse | ⟨heap', ⟨hsize, hlong, data, hdata, hcount, hliterals⟩, hpost⟩)
      · exact hfalse.elim
      · exact ⟨hsize, hlong, data, hdata, hcount, heap', hliterals, hpost⟩
  case h_9 =>
    exact (answers_making (hconst _) _).trans ((answers_table goes_readExport).trans loads_only)
  case h_18 => exact iff_of_true (answers_err _) (.inl trivial)
  all_goals exact hskip _

theorem decided_loadChunk (s : LoadState) :
    Decided (fun fuel => loadChunk inflate fuel file chunkH chunkSz) s := by
  unfold loadChunk
  split
  case h_7 =>
    exact (decided_loadLineInfo s).bind fun _ s' _ => FuelledState.decided_const _ s'
  case h_8 =>
    exact (decided_loadLiterals s).bind fun _ s' _ => FuelledState.decided_const _ s'
  all_goals exact FuelledState.decided_const _ s

theorem keepsFile_loadChunk (hne : s.reader.buf ≠ []) {file' : BeamFile} {s' : LoadState}
    (h : FuelledState.Comes (fun fuel => loadChunk inflate fuel file chunkH chunkSz) s
      (.ok (file', s'))) : s'.reader.buf = s.reader.buf := by
  have hreturns : Answers (fun fuel => loadChunk inflate fuel file chunkH chunkSz) s
      (leaving fun _ _ => True) := (FuelledState.answers_of_comes h).mpr trivial
  have hkeeps : Answers (fun fuel => loadChunk inflate fuel file chunkH chunkSz) s
      (leaving fun buf _ => buf = s.reader.buf) := by
    refine (answers_loadChunk hne).mpr (((answers_loadChunk hne).mp hreturns).imp_right ?_)
    exact fun ⟨heap', hloads, _⟩ => ⟨heap', hloads, rfl⟩
  exact (FuelledState.answers_of_comes h).mp hkeeps

end Chunk

/-! ## The walk -/

section Walk

variable (inflate : List UInt8 → Option (List UInt8)) (bytes : List UInt8)

/-- The name of the chunk at the position. -/
def nameAt (pos : Nat) : String :=
  latin1Text ((bytes.drop pos).take 4)

/-- The size that the chunk at the position says it has. -/
def sizeAt (pos : Nat) : Nat :=
  firstU32 (bytes.drop (pos + 4))

/-- Where the chunk after that at the position is looked for. -/
def nextAt (pos : Nat) : Nat :=
  pos + 8 + 4 * ((sizeAt bytes pos + 3) / 4)

/-- The walk from the position on ends: where no name is left, at a chunk that is
reported, or after a chunk that is loaded and that ends in the file. -/
inductive Walked : Nat → Heap → Prop where
  | ended {pos : Nat} {heap : Heap} (h : bytes.length < pos + 4) : Walked pos heap
  | reported {pos : Nat} {heap : Heap} (hsize : pos + 8 ≤ bytes.length)
      (h : Reports (nameAt bytes pos) ⟨⟨bytes, pos + 8⟩, heap⟩) : Walked pos heap
  | loaded {pos : Nat} {heap heap' : Heap} (hsize : pos + 8 ≤ bytes.length)
      (h : Loads inflate (nameAt bytes pos) (sizeAt bytes pos) ⟨⟨bytes, pos + 8⟩, heap⟩ heap')
      (hsum : sizeAt bytes pos + 3 < 2 ^ 32) (hnext : nextAt bytes pos ≤ bytes.length)
      (hwalked : Walked (nextAt bytes pos) heap') : Walked pos heap

theorem walked_iff {pos : Nat} {heap : Heap} (hname : pos + 4 ≤ bytes.length) :
    Walked inflate bytes pos heap ↔ pos + 8 ≤ bytes.length ∧
      (Reports (nameAt bytes pos) ⟨⟨bytes, pos + 8⟩, heap⟩ ∨ ∃ heap',
        Loads inflate (nameAt bytes pos) (sizeAt bytes pos) ⟨⟨bytes, pos + 8⟩, heap⟩ heap' ∧
          sizeAt bytes pos + 3 < 2 ^ 32 ∧ nextAt bytes pos ≤ bytes.length ∧
          Walked inflate bytes (nextAt bytes pos) heap') := by
  constructor
  · intro h
    cases h with
    | ended h => omega
    | reported hsize h => exact ⟨hsize, .inl h⟩
    | loaded hsize h hsum hnext hwalked => exact ⟨hsize, .inr ⟨_, h, hsum, hnext, hwalked⟩⟩
  · rintro ⟨hsize, h | ⟨heap', h, hsum, hnext, hwalked⟩⟩
    · exact .reported hsize h
    · exact .loaded hsize h hsum hnext hwalked

end Walk

section ChunkLoop

variable {inflate : List UInt8 → Option (List UInt8)} {file : BeamFile} {s : LoadState}

theorem chunkLoop_of_not_has (h : ¬ Has s 4) (fuel : Nat) :
    chunkLoop inflate (fuel + 1) file s = .ok (file, s) := by
  have hread : reading (readStrLatin1 4) s = .error (.err (.readError .prematureEOF)) :=
    reading_of_error (StateExcept.bind_eq_of_error (readBytes_of_not_has h))
  simp only [chunkLoop, hread]

/-- One chunk, and then the others. -/
def chunkStep (inflate : List UInt8 → Option (List UInt8)) (fuel : Nat) (file : BeamFile)
    (chunkH : String) : Loading BeamFile := do
  let chunkSz ← reading readU32be
  let posBegin := (← get).reader.pos
  let file ← loadChunk inflate fuel file chunkH chunkSz
  let aligned ← alignedSz chunkSz
  reading (seek (posBegin + aligned))
  chunkLoop inflate fuel file

theorem chunkLoop_of_has (h : Has s 4) (fuel : Nat) :
    chunkLoop inflate (fuel + 1) file s =
      chunkStep inflate fuel file (latin1Text (s.reader.rest.take 4)) (s.advance 4) := by
  have hread : reading (readStrLatin1 4) s =
      .ok (latin1Text (s.reader.rest.take 4), s.advance 4) :=
    reading_of_ok (StateExcept.bind_eq_of_ok (readBytes_of_has h))
  simp only [chunkLoop, hread]
  rfl

theorem nextAt_gt (bytes : List UInt8) (pos : Nat) : pos < nextAt bytes pos := by
  rw [nextAt]
  omega

/-- What follows a chunk: the sum, the next position, and the rest of the walk. -/
theorem answers_afterChunk {chunkSz posBegin : Nat} {post : BeamFile → LoadState → Prop} :
    Answers (fun fuel => do
        let aligned ← alignedSz chunkSz
        reading (seek (posBegin + aligned))
        chunkLoop inflate fuel file) s post ↔
      chunkSz + 3 < 2 ^ 32 ∧ posBegin + 4 * ((chunkSz + 3) / 4) ≤ s.reader.buf.length ∧
        Answers (fun fuel => chunkLoop inflate fuel file)
          ⟨⟨s.reader.buf, posBegin + 4 * ((chunkSz + 3) / 4)⟩, s.heap⟩ post := by
  refine answers_bind_const.trans (answers_alignedSz.trans (and_congr_right fun _ => ?_))
  exact answers_bind_const.trans answers_seek

theorem answers_chunkLoop (bytes : List UInt8) (pos : Nat) (heap : Heap) (file : BeamFile) :
    Answers (fun fuel => chunkLoop inflate fuel file) ⟨⟨bytes, pos⟩, heap⟩ (fun _ _ => True) ↔
      Walked inflate bytes pos heap := by
  generalize hleft : bytes.length - pos = left
  induction left using Nat.strongRecOn generalizing pos heap file with
  | ind left ih =>
      refine FuelledState.answers_succ_iff.symm.trans ?_
      by_cases hname : Has ⟨⟨bytes, pos⟩, heap⟩ 4
      · rw [walked_iff inflate bytes hname]
        refine (FuelledState.answers_of_eq (chunkLoop_of_has hname)).trans ?_
        refine answers_bind_const.trans (answers_readU32be.trans ?_)
        rw [has_advance]
        refine and_congr_right fun hsize => ?_
        refine answers_bind_const.trans ((answers_of_ok rfl).trans ?_)
        refine (FuelledState.answers_bind (decided_loadChunk _)).trans ?_
        have hne : bytes ≠ [] := by
          rintro rfl
          exact absurd (show 0 + 4 ≤ 0 from Nat.le_trans (by omega) hname) (by omega)
        have hafter : ∀ file' s', FuelledState.Comes (fun fuel => loadChunk inflate fuel file
            (nameAt bytes pos) (sizeAt bytes pos)) ⟨⟨bytes, pos + 8⟩, heap⟩ (.ok (file', s')) →
            (Answers (fun fuel => do
                let aligned ← alignedSz (sizeAt bytes pos)
                reading (seek (pos + 8 + aligned))
                chunkLoop inflate fuel file') s' (fun _ _ => True) ↔
              leaving (fun _ heap' => sizeAt bytes pos + 3 < 2 ^ 32 ∧
                nextAt bytes pos ≤ bytes.length ∧ Walked inflate bytes (nextAt bytes pos) heap')
                file' s') := by
          intro file' s' hcomes
          have hbuf : s'.reader.buf = bytes := keepsFile_loadChunk hne hcomes
          refine answers_afterChunk.trans ?_
          rw [hbuf]
          refine and_congr_right fun _ => and_congr_right fun hnext => ?_
          -- the position only grows, up to the end of the file
          refine ih (bytes.length - nextAt bytes pos) ?_ _ _ _ rfl
          have hgt := nextAt_gt bytes pos
          rw [Has] at hname
          dsimp only at hname
          omega
        exact (FuelledState.answers_congr_of_comes hafter).trans (answers_loadChunk hne)
      · refine iff_of_true ?_ (.ended (Nat.not_le.mp hname))
        exact ⟨_, ⟨0, fun fuel _ => chunkLoop_of_not_has hname fuel⟩, trivial⟩

end ChunkLoop

/-! ## The file -/

theorem answers_ensureBytes {sample : List UInt8} {s : LoadState}
    {post : Unit → LoadState → Prop} :
    Answers (fun _ => reading (ensureBytes sample)) s post ↔
      Has s sample.length ∧ (s.reader.rest.take sample.length = sample →
        post () (s.advance sample.length)) := by
  by_cases h : Has s sample.length
  · have hread : unwrap (readBytes sample.length) s.reader =
        .ok (s.reader.rest.take sample.length, s.reader.advance sample.length) := by
      rw [unwrap, readBytes_of_has h]
    by_cases hsample : s.reader.rest.take sample.length = sample
    · have hensure : ensureBytes sample s.reader = .ok ((), s.reader.advance sample.length) := by
        rw [ensureBytes, StateExcept.bind_eq_of_ok hread, if_pos hsample]
        rfl
      refine (answers_of_ok (reading_of_ok hensure)).trans ?_
      rw [and_iff_right h, forall_prop_of_true hsample]
      rfl
    · have hensure : ensureBytes sample s.reader =
          .error (.err (.readError (.readFailed "File reader: Expected"))) := by
        rw [ensureBytes, StateExcept.bind_eq_of_ok hread, if_neg hsample]
        rfl
      exact iff_of_true (answers_of_err (reading_of_error hensure))
        ⟨h, fun heq => absurd heq hsample⟩
  · have hread : unwrap (readBytes sample.length) s.reader = .error (.panic .unwrap) := by
      rw [unwrap, readBytes_of_not_has h]
    have hensure : ensureBytes sample s.reader = .error (.panic .unwrap) := by
      rw [ensureBytes, StateExcept.bind_eq_of_error hread]
    exact iff_of_false (not_answers_of_panic (reading_of_error hensure)) fun hand => h hand.1

/-- With enough fuel the chunks of a file are read to one result, which is returned or
reported. -/
def ReadEnds (inflate : List UInt8 → Option (List UInt8)) (bytes : List UInt8)
    (heap : Heap) : Prop :=
  ∃ result, (∃ least, ∀ fuel, least ≤ fuel →
      readChunks inflate fuel ⟨fromBytes bytes, heap⟩ = result) ∧
    ((∃ file, result = .ok file) ∨ ∃ e, result = .error (.err e))

/-- There is a first signature, which may be wrong, or else a size and a second signature,
which may be wrong, or else the walk through the chunks ends. -/
def Readable (inflate : List UInt8 → Option (List UInt8)) (bytes : List UInt8)
    (heap : Heap) : Prop :=
  4 ≤ bytes.length ∧ (bytes.take 4 = hdr1 → 12 ≤ bytes.length ∧
    ((bytes.drop 8).take 4 = hdr2 → Walked inflate bytes 12 heap))

theorem readEnds_iff_answers (inflate : List UInt8 → Option (List UInt8)) (bytes : List UInt8)
    (heap : Heap) :
    ReadEnds inflate bytes heap ↔
      Answers (readChunks inflate) ⟨fromBytes bytes, heap⟩ (fun _ _ => True) := by
  refine exists_congr fun result => and_congr_right fun _ => ?_
  match result with
  | .ok file => exact iff_of_true (.inl ⟨file, rfl⟩) trivial
  | .error (.err e) => exact iff_of_true (.inr ⟨e, rfl⟩) trivial
  | .error (.panic p) =>
      refine iff_of_false ?_ id
      rintro (⟨file, hfile⟩ | ⟨e, he⟩)
      · cases hfile
      · cases he

theorem has_start {bytes : List UInt8} {heap : Heap} {n : Nat} :
    Has ⟨fromBytes bytes, heap⟩ n ↔ n ≤ bytes.length := by
  rw [Has, fromBytes, Nat.zero_add]

/-- `FOR1`, a size, `BEAM`, and a chunk `Attr` that says it has 2^32 - 1 bytes. -/
def oversizedChunk : List UInt8 :=
  [70, 79, 82, 49, 0, 0, 0, 12, 66, 69, 65, 77, 65, 116, 116, 114, 255, 255, 255, 255]

end BeamFile

end Zeptobeam
