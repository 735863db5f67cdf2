/-
What it takes for one chunk of a BEAM file to be loaded: which parts of it have to be
there, and which are reported if they are not.  Chunks are read up to the end of the file,
and not up to their own end.
-/
import Zeptobeam.EtfTotal
import Zeptobeam.LoadingAnswers

namespace Zeptobeam

namespace BeamFile

open Loading BinaryReader

/-- The number in the first four bytes. -/
def firstU32 (bytes : List UInt8) : Nat :=
  bigEndian (bytes.take 4)

/-- The number of entries, and then entries of `width` bytes. -/
def Table (width : Nat) (bytes : List UInt8) : Prop :=
  4 + firstU32 bytes * width ≤ bytes.length

/-! ## Atoms -/

/-- The length of a name, and how many bytes say it. -/
inductive NameLength where
  | missing
  | unsupported
  | given (size width : Nat)
deriving DecidableEq, Repr

def lengthU8 : List UInt8 → NameLength
  | [] => .missing
  | b :: _ => .given b.toNat 1

def compactLength : List UInt8 → NameLength
  | [] => .missing
  | b :: rest =>
      if b.toNat / 8 % 2 = 0 then .given (b.toNat / 16) 1
      else if b.toNat / 16 % 2 = 0 then
        match rest with
        | [] => .missing
        | low :: _ => .given (b.toNat / 32 * 256 + low.toNat) 2
      else .unsupported

/-- Bytes of Latin-1 are always a text. -/
def AnyText (_ : List UInt8) : Prop := True

def Utf8Text (name : List UInt8) : Prop :=
  (LineFile.decode name).isSome

section Names

variable (length : List UInt8 → NameLength) (IsText : List UInt8 → Prop)

/-- There are `n` names, each behind its length. -/
def Names : Nat → List UInt8 → Prop
  | 0, _ => True
  | n + 1, bytes => ∃ size width, length bytes = .given size width ∧
      width + size ≤ bytes.length ∧ IsText ((bytes.drop width).take size) ∧
      Names n (bytes.drop (width + size))

/-- Of `n` names one is cut off, or is no text, or has a length that is not supported. -/
def BrokenName : Nat → List UInt8 → Prop
  | 0, _ => False
  | n + 1, bytes => length bytes = .unsupported ∨
      ∃ size width, length bytes = .given size width ∧
        (width + size ≤ bytes.length → IsText ((bytes.drop width).take size) →
          BrokenName n (bytes.drop (width + size)))

end Names

/-- How many names there are, of which the number was given. -/
def nameCount (rawCount : Nat) : Nat :=
  if rawCount < 2 ^ 31 then rawCount else 2 ^ 32 - rawCount

/-- How their lengths are given. -/
def nameLength (rawCount : Nat) : List UInt8 → NameLength :=
  if rawCount < 2 ^ 31 then lengthU8 else compactLength

/-! ## Lines -/

/-- The compact terms of `n` line references are read, from one state to another. -/
def LineRefs : Nat → LoadState → LoadState → Prop
  | 0, s, s' => s' = s
  | n + 1, s, s' => ∃ val between,
      FuelledState.Comes (CompactTerm.read .asJumpTable) s (.ok (val, between)) ∧
      isLineRef val = true ∧ LineRefs n between s'

/-- One of the compact terms is reported. -/
def BrokenLineRef : Nat → LoadState → Prop
  | 0, _ => False
  | n + 1, s =>
      (∃ e, FuelledState.Comes (CompactTerm.read .asJumpTable) s (.error (.err e))) ∨
        ∃ val between,
          FuelledState.Comes (CompactTerm.read .asJumpTable) s (.ok (val, between)) ∧
          isLineRef val = true ∧ BrokenLineRef n between

/-- How many bytes a file name and its length take, of which a name that is cut off takes
none. -/
def filenameWidth (bytes : List UInt8) : Nat :=
  let size := bigEndian (bytes.take 2)
  if 2 + size ≤ bytes.length then 2 + size else 2

/-- There are the lengths of `n` file names. -/
def Filenames : Nat → List UInt8 → Prop
  | 0, _ => True
  | n + 1, bytes => 2 ≤ bytes.length ∧ Filenames n (bytes.drop (filenameWidth bytes))

/-! ## Literals -/

/-- The literals, if they are compressed as it is said. -/
def literalData (inflate : List UInt8 → Option (List UInt8)) (uncompSz : Nat)
    (rawData : List UInt8) : Option (List UInt8) :=
  if uncompSz = 0 then some rawData
  else (inflate rawData).filter fun inflated => inflated.length = uncompSz

/-- There are `n` terms that fit on the heap one after the other, each behind its size. -/
def Literals : Nat → List UInt8 → Heap → Heap → Prop
  | 0, _, heap, heap' => heap' = heap
  | n + 1, bytes, heap, heap' => ∃ (t : Etf) (rest : List UInt8), 4 ≤ bytes.length ∧
      bytes.drop 4 = 131 :: t.bytes ++ rest ∧ t.WellFormed ∧
      t.Fits heap.boxHeader heap.stackTop heap.heapTop ∧ Literals n rest (t.after heap) heap'

/-! ## Chunks -/

/-- A chunk is loaded, and what it leaves of the heap. -/
def Loads (inflate : List UInt8 → Option (List UInt8)) (chunkH : String) (chunkSz : Nat)
    (s : LoadState) (heap' : Heap) : Prop :=
  let bytes := s.reader.rest
  match chunkH with
  | "Atom" => 4 ≤ bytes.length ∧ Names lengthU8 AnyText (firstU32 bytes) (bytes.drop 4) ∧
      heap' = s.heap
  | "AtU8" => 4 ≤ bytes.length ∧ firstU32 bytes ≠ 2 ^ 31 ∧
      Names (nameLength (firstU32 bytes)) Utf8Text (nameCount (firstU32 bytes))
        (bytes.drop 4) ∧
      heap' = s.heap
  | "Code" => 20 ≤ bytes.length ∧ firstU32 (bytes.drop 8) ≤ opcodeMax ∧
      20 ≤ chunkSz ∧ chunkSz ≤ bytes.length ∧ heap' = s.heap
  | "ExpT" | "ImpT" | "LocT" => Table 12 bytes ∧ heap' = s.heap
  | "FunT" => Table 24 bytes ∧ heap' = s.heap
  | "Line" => 20 ≤ bytes.length ∧ ∃ s',
      LineRefs (firstU32 (bytes.drop 12)) (s.advance 20) s' ∧
      Filenames (firstU32 (bytes.drop 16)) s'.reader.rest ∧ heap' = s'.heap
  | "LitT" => 4 ≤ chunkSz ∧ chunkSz ≤ bytes.length ∧ ∃ data,
      literalData inflate (firstU32 bytes) ((bytes.drop 4).take (chunkSz - 4)) = some data ∧
      4 ≤ data.length ∧ Literals (firstU32 data) (data.drop 4) s.heap heap'
  | "Attr" | "CInf" | "Dbgi" | "Docs" | "Meta" | "Type" | "StrT" | "Abst" => heap' = s.heap
  | _ => False

/-- A chunk is reported: its name, or what is in it. -/
def Reports (chunkH : String) (s : LoadState) : Prop :=
  let bytes := s.reader.rest
  match chunkH with
  | "Atom" => 4 ≤ bytes.length ∧
      BrokenName lengthU8 AnyText (firstU32 bytes) (bytes.drop 4)
  | "AtU8" => 4 ≤ bytes.length ∧ firstU32 bytes ≠ 2 ^ 31 ∧
      BrokenName (nameLength (firstU32 bytes)) Utf8Text (nameCount (firstU32 bytes))
        (bytes.drop 4)
  | "Code" => 20 ≤ bytes.length ∧ opcodeMax < firstU32 (bytes.drop 8)
  | "Line" => 20 ≤ bytes.length ∧ BrokenLineRef (firstU32 (bytes.drop 12)) (s.advance 20)
  | "ExpT" | "ImpT" | "LocT" | "FunT" | "LitT" => False
  | "Attr" | "CInf" | "Dbgi" | "Docs" | "Meta" | "Type" | "StrT" | "Abst" => False
  | _ => True

theorem answers_usizeSub {a b : Nat} {s : LoadState} {post : Nat → LoadState → Prop} :
    Answers (fun _ => usizeSub a b) s post ↔ b ≤ a ∧ post (a - b) s := by
  unfold usizeSub
  split_ifs with h
  · exact iff_of_false (not_answers_panic _) fun hand => by omega
  · exact FuelledState.answers_pure.trans (and_iff_right (Nat.not_lt.mp h)).symm

theorem answers_alignedSz {chunkSz : Nat} {s : LoadState} {post : Nat → LoadState → Prop} :
    Answers (fun _ => alignedSz chunkSz) s post ↔
      chunkSz + 3 < 2 ^ 32 ∧ post (4 * ((chunkSz + 3) / 4)) s := by
  unfold alignedSz
  split_ifs with h
  · exact iff_of_false (not_answers_panic _) fun hand => by omega
  · exact FuelledState.answers_pure.trans (and_iff_right (Nat.not_le.mp h)).symm

/-! ## Tables -/

section

variable {α : Type} {s : LoadState} {post : List UInt8 → Heap → Prop}

theorem answers_table {x : Loading α} {width : Nat} (hx : Goes x width) :
    Answers (fun _ => reading readU32be >>= fun n => times n x) s (leaving post) ↔
      Table width s.reader.rest ∧ post s.reader.buf s.heap := by
  refine answers_bind_const.trans (answers_readU32be.trans ?_)
  have htable : Has s (4 + firstU32 s.reader.rest * width) ↔ Table width s.reader.rest :=
    has_iff (.inr (by omega))
  constructor
  · rintro ⟨hhas, h⟩
    obtain ⟨hentries, hpost⟩ := (hx.times _ (has_advance.mpr hhas)).mp h
    exact ⟨htable.mp (has_advance.mp hentries), hpost⟩
  · rintro ⟨h, hpost⟩
    have hentries := htable.mpr h
    have hhas : Has s 4 := by
      rw [Has] at hentries ⊢
      omega
    exact ⟨hhas, (hx.times _ (has_advance.mpr hhas)).mpr ⟨has_advance.mpr hentries, hpost⟩⟩

theorem goes_readExport : Goes readExport 12 :=
  goes_readU32be.bind fun _ => goes_readU32be.bind fun _ => goes_readU32be.making _

theorem goes_readImport : Goes readImport 12 :=
  goes_readU32be.bind fun _ => goes_readU32be.bind fun _ => goes_readU32be.making _

theorem goes_readFun : Goes readFun 24 :=
  goes_readU32be.bind fun _ => goes_readU32be.bind fun _ => goes_readU32be.bind fun _ =>
    goes_readU32be.bind fun _ => goes_readU32be.bind fun _ => goes_readU32be.making _

end

/-! ## Names -/

/-- What the read of a length does. -/
structure ReadsLength (readLength : Loading Nat) (length : List UInt8 → NameLength) :
    Prop where
  answers : ∀ (s : LoadState) (post : Nat → LoadState → Prop),
    Answers (fun _ => readLength) s post ↔
      length s.reader.rest = .unsupported ∨ ∃ size width,
        length s.reader.rest = .given size width ∧ post size (s.advance width)
  present : ∀ {bytes : List UInt8} {size width : Nat}, length bytes = .given size width →
    0 < width ∧ width ≤ bytes.length

/-- What the read of a name does. -/
def ReadsText (readText : Nat → Loading String) (IsText : List UInt8 → Prop) : Prop :=
  ∀ (size : Nat) (s : LoadState) (post : LoadState → Prop),
    Answers (fun _ => readText size) s (fun _ => post) ↔
      (Has s size → IsText (s.reader.rest.take size) → post (s.advance size))

theorem exists_given {size width : Nat} {P : Nat → Nat → Prop} :
    (∃ size' width', NameLength.given size width = .given size' width' ∧ P size' width') ↔
      P size width := by
  constructor
  · rintro ⟨_, _, heq, h⟩
    cases heq
    exact h
  · exact fun h => ⟨size, width, rfl, h⟩

theorem exists_cons {b : UInt8} {rest : List UInt8} {P : UInt8 → List UInt8 → Prop} :
    (∃ b' rest', b :: rest = b' :: rest' ∧ P b' rest') ↔ P b rest := by
  constructor
  · rintro ⟨_, _, heq, h⟩
    cases heq
    exact h
  · exact fun h => ⟨b, rest, rfl, h⟩

theorem answers_loadAtoms {readLength : Loading Nat} {readStr : Nat → Reading String}
    {what : String} {length : List UInt8 → NameLength} {IsText : List UInt8 → Prop}
    (hlength : ReadsLength readLength length)
    (htext : ∀ i, ReadsText (fun size => mapAtomErr what i (readStr size)) IsText)
    (n i : Nat) {s : LoadState} (hs : Has s 0) {post : List UInt8 → Heap → Prop} :
    Answers (fun _ => loadAtoms readLength readStr what i n) s (leaving post) ↔
      BrokenName length IsText n s.reader.rest ∨
        Names length IsText n s.reader.rest ∧ post s.reader.buf s.heap := by
  induction n generalizing i s with
  | zero =>
      exact FuelledState.answers_pure.trans
        ⟨fun h => .inr ⟨trivial, h⟩, fun h => (h.resolve_left id).2⟩
  | succ n ih =>
      have hname : ∀ size width, length s.reader.rest = .given size width →
          (Answers (fun _ => mapAtomErr what i (readStr size) >>= fun atomText =>
              loadAtoms readLength readStr what (i + 1) n >>= fun others =>
                pure (atomText :: others)) (s.advance width) (leaving post) ↔
            (width + size ≤ s.reader.rest.length →
              IsText ((s.reader.rest.drop width).take size) →
              BrokenName length IsText n (s.reader.rest.drop (width + size)) ∨
                Names length IsText n (s.reader.rest.drop (width + size)) ∧
                  post s.reader.buf s.heap)) := by
        intro size width hgiven
        have hpresent := hlength.present hgiven
        refine answers_bind_const.trans ?_
        refine (FuelledState.answers_congr fun _ s' =>
          answers_making (FuelledState.decided_const _ s') _).trans ?_
        refine (htext i size (s.advance width) _).trans ?_
        rw [has_advance, has_iff (.inr (by omega)), LoadState.reader_advance, rest_advance]
        refine forall_congr' fun hlong => forall_congr' fun _ => ?_
        rw [LoadState.advance_advance]
        have hhas : Has s (width + size) := (has_iff (.inr (by omega))).mpr hlong
        have hrest := ih (i + 1) (s := s.advance (width + size)) (has_advance.mpr hhas)
        rwa [LoadState.reader_advance, rest_advance] at hrest
      refine answers_bind_const.trans ((hlength.answers s _).trans ?_)
      rw [BrokenName, Names]
      cases hgiven : length s.reader.rest with
      | missing => simp
      | unsupported => simp
      | given size width =>
          have hiff := hname size width hgiven
          simp only [exists_given, reduceCtorEq, false_or]
          rw [hiff]
          tauto

theorem readsLength_u8 : ReadsLength readLengthU8 lengthU8 where
  answers s post := by
    refine answers_bind_const.trans (answers_readU8.trans ?_)
    cases s.reader.rest with
    | nil => simp [lengthU8]
    | cons b rest =>
        rw [exists_cons]
        simp only [lengthU8, exists_given, reduceCtorEq, false_or]
        exact FuelledState.answers_pure
  present {bytes size width} hgiven := by
    cases bytes with
    | nil => cases hgiven
    | cons b rest =>
        cases hgiven
        exact ⟨Nat.one_pos, by simp⟩

section CompactLength

variable {b : UInt8} {rest : List UInt8}

theorem compactLength_short (h : b.toNat / 8 % 2 = 0) :
    compactLength (b :: rest) = .given (b.toNat / 16) 1 :=
  if_pos h

theorem compactLength_long (h : b.toNat / 8 % 2 ≠ 0) (h' : b.toNat / 16 % 2 = 0)
    (low : UInt8) :
    compactLength (b :: low :: rest) = .given (b.toNat / 32 * 256 + low.toNat) 2 :=
  (if_neg h).trans (if_pos h')

theorem compactLength_missing (h : b.toNat / 8 % 2 ≠ 0) (h' : b.toNat / 16 % 2 = 0) :
    compactLength [b] = .missing :=
  (if_neg h).trans (if_pos h')

theorem compactLength_unsupported (h : b.toNat / 8 % 2 ≠ 0) (h' : b.toNat / 16 % 2 ≠ 0) :
    compactLength (b :: rest) = .unsupported :=
  (if_neg h).trans (if_neg h')

end CompactLength

theorem readsLength_compact : ReadsLength readCompactAtomLength compactLength where
  answers s post := by
    refine answers_bind_const.trans (answers_readU8.trans ?_)
    cases hrest : s.reader.rest with
    | nil => simp [compactLength]
    | cons b rest =>
        rw [exists_cons]
        split_ifs with h h'
        · rw [compactLength_short h]
          simp only [exists_given, reduceCtorEq, false_or]
          exact FuelledState.answers_pure
        · refine answers_bind_const.trans (answers_readU8.trans ?_)
          rw [LoadState.reader_advance, rest_advance, hrest]
          cases rest with
          | nil =>
              rw [compactLength_missing h h']
              simp
          | cons low rest =>
              rw [compactLength_long h h']
              simp only [exists_given, reduceCtorEq, false_or, List.drop_one, List.tail_cons]
              rw [exists_cons]
              exact FuelledState.answers_pure
        · exact iff_of_true (answers_err _) (.inl (compactLength_unsupported h h'))
  present {bytes size width} hgiven := by
    cases bytes with
    | nil => cases hgiven
    | cons b rest =>
        by_cases h : b.toNat / 8 % 2 = 0
        · rw [compactLength_short h] at hgiven
          cases hgiven
          exact ⟨Nat.one_pos, by simp⟩
        · by_cases h' : b.toNat / 16 % 2 = 0
          · cases rest with
            | nil =>
                rw [compactLength_missing h h'] at hgiven
                cases hgiven
            | cons low rest =>
                rw [compactLength_long h h'] at hgiven
                cases hgiven
                exact ⟨Nat.two_pos, by simp⟩
          · rw [compactLength_unsupported h h'] at hgiven
            cases hgiven

section ReadsText

variable {what : String} {i size : Nat} {s : LoadState} {post : LoadState → Prop}

theorem mapAtomErr_of_ok {x : Reading String} {text : String} {r : BinaryReader}
    (h : x s.reader = .ok (text, r)) : mapAtomErr what i x s = .ok (text, ⟨r, s.heap⟩) := by
  rw [mapAtomErr, reading_of_ok h]

theorem mapAtomErr_of_readError (what : String) (i : Nat) {x : Reading String} {e : ReadError}
    (h : x s.reader = .error (.err (.readError e))) :
    ∃ e', mapAtomErr what i x s = .error (.err e') := by
  rw [mapAtomErr, reading_of_error h]
  exact ⟨_, rfl⟩

theorem answers_of_cut {f : List UInt8 → Reading String} (h : ¬ Has s size) :
    Answers (fun _ => mapAtomErr what i (readBytes size >>= f)) s (fun _ => post) := by
  have hread : (readBytes size >>= f) s.reader = .error (.err (.readError .prematureEOF)) :=
    StateExcept.bind_eq_of_error (readBytes_of_not_has h)
  obtain ⟨e, he⟩ := mapAtomErr_of_readError what i hread
  exact answers_of_err he

theorem readsText_latin1 (what : String) (i : Nat) :
    ReadsText (fun size => mapAtomErr what i (readStrLatin1 size)) AnyText := by
  intro size s post
  by_cases h : Has s size
  · have hread : readStrLatin1 size s.reader = .ok (_, s.reader.advance size) :=
      StateExcept.bind_eq_of_ok (readBytes_of_has h)
    exact (answers_of_ok (mapAtomErr_of_ok hread)).trans
      ⟨fun hpost _ _ => hpost, fun hpost => hpost h trivial⟩
  · exact iff_of_true (answers_of_cut h) fun h' => absurd h' h

theorem readsText_utf8 (what : String) (i : Nat) :
    ReadsText (fun size => mapAtomErr what i (readStrUtf8 size)) Utf8Text := by
  intro size s post
  by_cases h : Has s size
  · cases hdecode : LineFile.decode (s.reader.rest.take size) with
    | none =>
        have hread : readStrUtf8 size s.reader = .error (.err (.readError .invalidUtf8)) := by
          rw [readStrUtf8, StateExcept.bind_eq_of_ok (readBytes_of_has h), hdecode]
          rfl
        obtain ⟨e, he⟩ := mapAtomErr_of_readError what i hread
        refine iff_of_true (answers_of_err he) fun _ htext => ?_
        rw [Utf8Text, hdecode] at htext
        cases htext
    | some text =>
        have hread : readStrUtf8 size s.reader =
            .ok (String.ofList text, s.reader.advance size) := by
          rw [readStrUtf8, StateExcept.bind_eq_of_ok (readBytes_of_has h), hdecode]
          rfl
        have htext : Utf8Text (s.reader.rest.take size) := by
          rw [Utf8Text, hdecode]
          rfl
        exact (answers_of_ok (mapAtomErr_of_ok hread)).trans
          ⟨fun hpost _ _ => hpost, fun hpost => hpost h htext⟩
  · exact iff_of_true (answers_of_cut h) fun h' => absurd h' h

end ReadsText

section Atoms

variable {s : LoadState} {post : List UInt8 → Heap → Prop}

theorem answers_loadAtomsLatin1 :
    Answers (fun _ => loadAtomsLatin1) s (leaving post) ↔
      4 ≤ s.reader.rest.length ∧
        (BrokenName lengthU8 AnyText (firstU32 s.reader.rest) (s.reader.rest.drop 4) ∨
          Names lengthU8 AnyText (firstU32 s.reader.rest) (s.reader.rest.drop 4) ∧
            post s.reader.buf s.heap) := by
  refine answers_bind_const.trans (answers_readU32be.trans ?_)
  rw [← has_iff (s := s) (.inr (by omega))]
  refine and_congr_right fun hhas => ?_
  have h : Answers _ (s.advance 4) (leaving post) ↔ _ :=
    answers_loadAtoms readsLength_u8 (readsText_latin1 "Atom section")
      (firstU32 s.reader.rest) 0 (has_advance.mpr hhas)
  rwa [LoadState.reader_advance, rest_advance] at h

theorem answers_loadAtomsUtf8 :
    Answers (fun _ => loadAtomsUtf8) s (leaving post) ↔
      4 ≤ s.reader.rest.length ∧ firstU32 s.reader.rest ≠ 2 ^ 31 ∧
        (BrokenName (nameLength (firstU32 s.reader.rest)) Utf8Text
            (nameCount (firstU32 s.reader.rest)) (s.reader.rest.drop 4) ∨
          Names (nameLength (firstU32 s.reader.rest)) Utf8Text
            (nameCount (firstU32 s.reader.rest)) (s.reader.rest.drop 4) ∧
            post s.reader.buf s.heap) := by
  refine answers_bind_const.trans (answers_readU32be.trans ?_)
  rw [← has_iff (s := s) (.inr (by omega))]
  refine and_congr_right fun hhas => ?_
  have htext := readsText_utf8 "AtU8 atom"
  have hnames : ∀ {readLength : Loading Nat} {length : List UInt8 → NameLength},
      ReadsLength readLength length → ∀ n,
        (Answers _ (s.advance 4) (leaving post) ↔ _) := fun hlength n =>
    answers_loadAtoms hlength htext n 0 (has_advance.mpr hhas)
  simp only [LoadState.reader_advance, rest_advance] at hnames
  change Answers (fun _ => if firstU32 s.reader.rest < 2 ^ 31 then _ else _) _ _ ↔ _
  unfold nameLength nameCount
  split_ifs with hplain hmin
  · have hne : firstU32 s.reader.rest ≠ 2 ^ 31 := by omega
    exact (hnames readsLength_u8 _).trans (and_iff_right hne).symm
  · exact iff_of_false (not_answers_panic _) fun h => h.1 hmin
  · exact (hnames readsLength_compact _).trans (and_iff_right hmin).symm

end Atoms

/-! ## Code -/

/-- The five numbers that the code and the lines begin with. -/
theorem answers_fiveU32be {α : Type} {s : LoadState}
    (f : Nat → Nat → Nat → Nat → Nat → Nat → Loading α) {post : α → LoadState → Prop} :
    Answers (fun fuel => do
        let a ← reading readU32be
        let b ← reading readU32be
        let c ← reading readU32be
        let d ← reading readU32be
        let e ← reading readU32be
        f fuel a b c d e) s post ↔
      20 ≤ s.reader.rest.length ∧
        Answers (fun fuel => f fuel (firstU32 s.reader.rest) (firstU32 (s.reader.rest.drop 4))
          (firstU32 (s.reader.rest.drop 8)) (firstU32 (s.reader.rest.drop 12))
          (firstU32 (s.reader.rest.drop 16))) (s.advance 20) post := by
  have hone : ∀ {s : LoadState} (g : Nat → Nat → Loading α),
      Answers (fun fuel => reading readU32be >>= g fuel) s post ↔
        Has s 4 ∧ Answers (fun fuel => g fuel (firstU32 s.reader.rest)) (s.advance 4) post :=
    fun _ => answers_bind_const.trans answers_readU32be
  rw [← has_iff (s := s) (.inr (by omega)), hone, hone, hone, hone, hone]
  simp only [has_advance, LoadState.advance_advance, LoadState.reader_advance, rest_advance,
    ← and_assoc]
  refine and_congr_left fun _ => ?_
  simp only [Has]
  omega

theorem answers_loadCode {s : LoadState} {chunkSz : Nat} {post : List UInt8 → Heap → Prop} :
    Answers (fun _ => loadCode chunkSz) s (leaving post) ↔
      20 ≤ s.reader.rest.length ∧
        (opcodeMax < firstU32 (s.reader.rest.drop 8) ∨
          firstU32 (s.reader.rest.drop 8) ≤ opcodeMax ∧ 20 ≤ chunkSz ∧
            chunkSz ≤ s.reader.rest.length ∧ post s.reader.buf s.heap) := by
  refine (answers_fiveU32be fun _ _ _ _ _ _ => _).trans (and_congr_right fun hlong => ?_)
  split_ifs with hopcode
  · exact iff_of_true (answers_err _) (.inl hopcode)
  · refine answers_bind_const.trans (answers_usizeSub.trans ?_)
    rw [or_iff_right hopcode, and_iff_right (Nat.not_lt.mp hopcode)]
    refine and_congr_right fun hsize => answers_unwrap_readBytes.trans ?_
    rw [has_advance, Nat.add_sub_cancel' hsize, has_iff (.inr (by omega))]
    rfl

end BeamFile

end Zeptobeam
