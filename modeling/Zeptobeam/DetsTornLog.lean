/-
A log of a disk-backed table whose last line a crash has cut: what the bytes left of the line
read as, and what a reopened table makes of them.
-/
import Zeptobeam.DetsCompaction

namespace Zeptobeam

open LineFile

/-- The directory after a crash that cut the log's last line to `k` bytes. -/
def DetsDir.cutLog (dir : DetsDir) (k : Nat) : DetsDir :=
  { dir with log := dir.log.map fun file => cutLastLine file k }

namespace DetsTable

variable (serde : SerdeJson)

def entryText (entry : DetsLogEntry) : List Char :=
  serde.toString entry.toJson

/-- The files of an image with some bytes behind the log. -/
def tailed (name : String) (image : DetsImage) (tail : Bytes) : DetsDir :=
  { files serde name image with log := some (logBytes serde image.log ++ tail) }

theorem entryText_head (entry : DetsLogEntry) : ∃ cs, entryText serde entry = '{' :: cs :=
  serde.toString_obj _

theorem oneLine_entryText (entry : DetsLogEntry) : OneLine (entryText serde entry) :=
  serde.toString_oneLine _

theorem readLines_tailed (log : List DetsLogEntry) (tail : Bytes) :
    readLines (logBytes serde log ++ tail) =
      (log.map fun entry => some (entryText serde entry)) ++ readLines tail := by
  have hlines : ∀ text ∈ log.map (entryText serde), OneLine text := by
    intro text htext
    obtain ⟨entry, -, rfl⟩ := List.mem_map.mp htext
    exact oneLine_entryText serde entry
  have hread := readLines_writeLines_append hlines tail
  rw [List.map_map] at hread
  exact hread

/-- Whole entries are replayed, and then the lines behind them. -/
theorem replayLog_entries_append (log : List DetsLogEntry)
    (lines : List (Option (List Char))) (cache : DetsCache) :
    replayLog serde cache ((log.map fun entry => some (entryText serde entry)) ++ lines) =
      replayLog serde ((log.filterMap fun entry => entry.reread.record?).foldl
        ReplayLog.applyTo cache) lines := by
  induction log generalizing cache with
  | nil => rfl
  | cons entry log ih =>
      have hblank : isBlank (entryText serde entry) = false := serde.toString_obj_not_blank _
      have hentry : (serde.fromStr (entryText serde entry)).bind DetsLogEntry.fromJson =
          some entry.reread := by
        rw [entryText, serde.fromStr_toString, Option.bind_some, DetsLogEntry.fromJson_toJson]
      simp only [List.map_cons, List.cons_append, replayLog, hblank, Bool.false_eq_true, if_false,
        hentry, ih]
      cases hrecord : entry.reread.record? with
      | none => simp [applyLogEntry, hrecord]
      | some record => simp [applyLogEntry, hrecord]

/-- A line that is no entry makes the log unreadable. -/
theorem readLog_bad_line (log : List DetsLogEntry) {tail : Bytes} {item : Option (List Char)}
    (htail : readLines tail = [item])
    (hbad : ∀ text, item = some text → isBlank text = false ∧
      (serde.fromStr text).bind DetsLogEntry.fromJson = none)
    (base cache : DetsCache) :
    readLog serde base (some (logBytes serde log ++ tail)) ≠ .ok cache := by
  rw [readLog, readLines_tailed, replayLog_entries_append, htail]
  cases item with
  | none => exact fun h => by cases h
  | some text =>
      obtain ⟨hblank, hentry⟩ := hbad text rfl
      simp only [replayLog, hblank, Bool.false_eq_true, if_false, hentry]
      exact fun h => by cases h

theorem fromJson_of_glued (first second : DetsLogEntry) :
    (serde.fromStr (entryText serde first ++ entryText serde second)).bind
      DetsLogEntry.fromJson = none := by
  have htrailing := serde.fromStr_trailing
    ([("op", .str first.op), ("key", .str first.key)] ++
      first.value.toList.map fun value => ("value", value))
    ([("op", .str second.op), ("key", .str second.key)] ++
      second.value.toList.map fun value => ("value", value))
  have hnone : serde.fromStr (entryText serde first ++ entryText serde second) = none := htrailing
  rw [hnone, Option.bind_none]

/-- A part of an entry is no line of a log. -/
theorem readLines_torn (entry : DetsLogEntry) {k : Nat} (hk : k ≠ 0)
    (hlt : k < (encode (entryText serde entry)).length) :
    ∃ item, readLines ((encode (entryText serde entry)).take k) = [item] ∧
      ∀ text, item = some text → isBlank text = false ∧
        (serde.fromStr text).bind DetsLogEntry.fromJson = none := by
  refine ⟨_, serde.readLines_torn _ hk, fun text htext => ?_⟩
  obtain ⟨hblank, hwhole | hnone⟩ := SerdeJson.fromStr_of_decode_torn hk htext
  · -- a piece of less than all bytes is not the whole text
    have hpiece := congrArg List.length (eq_encode_of_decode htext)
    have hlength : ((encode (entryText serde entry)).take k).length = k :=
      List.length_take_of_le (Nat.le_of_lt hlt)
    rw [hwhole] at hpiece
    exact absurd (hlength.symm.trans hpiece) (Nat.ne_of_lt hlt)
  · exact ⟨hblank, by rw [hnone, Option.bind_none]⟩

theorem readLines_whole (entry : DetsLogEntry) :
    readLines (encode (entryText serde entry)) = [some (entryText serde entry)] :=
  serde.readLines_obj _

/-! ## Opening such a directory -/

variable {serde} {name : String} {image : DetsImage}

open DetsRun (Reopens reopens_iff reopens_files)

theorem not_reopens_of_bad_line {tail : Bytes} {item : Option (List Char)}
    (htail : readLines tail = [item])
    (hbad : ∀ text, item = some text → isBlank text = false ∧
      (serde.fromStr text).bind DetsLogEntry.fromJson = none) (cache : DetsCache) :
    ¬ Reopens serde name (tailed serde name image tail) cache := by
  intro hreopens
  obtain ⟨base, found, -, hlog, -⟩ := reopens_iff.mp hreopens
  exact readLog_bad_line serde image.log htail hbad base found hlog

/-- A table does not open when a part of an entry is left. -/
theorem not_reopens_torn (entry : DetsLogEntry) {k : Nat} (hk : k ≠ 0)
    (hlt : k < (encode (entryText serde entry)).length) (cache : DetsCache) :
    ¬ Reopens serde name (tailed serde name image ((encode (entryText serde entry)).take k))
      cache := by
  obtain ⟨item, hitem, hbad⟩ := readLines_torn serde entry hk hlt
  exact not_reopens_of_bad_line hitem hbad cache

theorem not_reopens_glued (first second : DetsLogEntry) (cache : DetsCache) :
    ¬ Reopens serde name (tailed serde name image
      (encode (entryText serde first) ++ line serde second.toJson)) cache := by
  refine not_reopens_of_bad_line (serde.readLines_glued first.toJson second.toJson) ?_ cache
  intro text htext
  cases htext
  refine ⟨?_, fromJson_of_glued serde first second⟩
  obtain ⟨cs, hcs⟩ := entryText_head serde first
  have hblank : isBlank (entryText serde first ++ entryText serde second) = false := by
    rw [hcs]
    simp [isBlank, isWhiteSpace]
  exact hblank

theorem readLog_whole (base : DetsCache) (log : List DetsLogEntry) (entry : DetsLogEntry) :
    readLog serde base (some (logBytes serde log ++ encode (entryText serde entry))) =
      readLog serde base (some (logBytes serde (log ++ [entry]))) := by
  have hlines : readLines (logBytes serde log ++ encode (entryText serde entry)) =
      readLines (logBytes serde (log ++ [entry])) := by
    rw [readLines_tailed, readLines_whole, readLines_logBytes, List.map_append]
    rfl
  exact congrArg (replayLog serde base) hlines

/-- An entry without its newline is read like a whole line. -/
theorem open_whole (config : DetsConfig) (entry : DetsLogEntry) :
    «open» serde name config (tailed serde name image (encode (entryText serde entry))) =
      .ok (opened name config (image.push entry).cache,
        tailed serde name image (encode (entryText serde entry))) := by
  obtain ⟨base, found, hdat, hlog, hopened, -⟩ :=
    (open_eq_ok serde).mp (open_files serde name config (image.push entry))
  refine (open_eq_ok serde).mpr ⟨base, found, hdat, ?_, hopened, rfl⟩
  rw [← hlog]
  exact readLog_whole base image.log entry

end DetsTable

/-- The line that a write puts at the end of the log. -/
def DetsOp.entry? : DetsOp → Option DetsLogEntry
  | .put _ key value _ => some ⟨"put", key, some value⟩
  | .deleteKey _ key _ => some ⟨"delete", key, none⟩
  | _ => none

namespace DetsRun

variable (serde : SerdeJson)

/-- What is asked of a table after a crash: the directory opens to the map, and from then on
the files open to the map in memory as long as each write is one that is read back. -/
def Survives (name : String) (dir : DetsDir) (cache : DetsCache) : Prop :=
  ∀ config, ∃ table dir', DetsTable.open serde name config dir = .ok (table, dir') ∧
    (∀ k, table.cache.lookup k = cache.lookup k) ∧
    ∀ later, GuardedRun.GuardedOk (step serde) Logged ⟨table, dir'⟩ later →
      GuardedRun.ThroughoutOk (step serde) (Durable serde) ⟨table, dir'⟩ later

/-- The files are those of an image. -/
def Formed (s : DetsRun) : Prop :=
  ∃ image, s.dir = DetsTable.files serde s.table.name image

variable {serde} {s s' : DetsRun} {op : DetsOp}

theorem Formed.step (h : s.Formed serde) (hs' : s.step serde op = .ok s') : s'.Formed serde := by
  obtain ⟨image, hfiles⟩ := h
  cases op with
  | put order key value caller =>
      obtain ⟨-, hname, image', hfiles', -⟩ := step_put hfiles hs'
      exact ⟨image', by rw [hfiles', hname]⟩
  | deleteKey order key caller =>
      obtain ⟨-, hname, image', hfiles', -⟩ := step_deleteKey hfiles hs'
      exact ⟨image', by rw [hfiles', hname]⟩
  | compact order =>
      obtain ⟨htable, hfiles'⟩ := step_compact hfiles hs'
      exact ⟨.compacted order s.table.cache, by rw [hfiles', htable]⟩
  | close =>
      cases hs'
      exact ⟨image, hfiles⟩
  | reopen config =>
      obtain ⟨-, hname, hdir⟩ := step_reopen hfiles hs'
      exact ⟨image, by rw [hdir, hfiles, hname]⟩

theorem formed_run {name : String} {config : DetsConfig} {ops : List DetsOp}
    (hs : run serde name config ops = .ok s) : s.Formed serde := by
  simp only [run, start_eq] at hs
  have hguarded : GuardedRun.GuardedOk (step serde) (fun _ _ => True)
      ⟨.opened name config ∅, DetsTable.files serde name .empty⟩ ops := fun _ _ _ _ _ _ _ => trivial
  exact GuardedRun.invariant_of_guardedOk (Formed serde) ⟨.empty, rfl⟩
    (fun _ _ _ h _ hs' => h.step hs') hguarded hs

/-- A write that does not compact the table puts its line at the end of the log. -/
theorem files_of_append {image : DetsImage} {entry : DetsLogEntry}
    (hfiles : s.dir = DetsTable.files serde s.table.name image)
    (hentry : op.entry? = some entry) (hs' : s.step serde op = .ok s')
    (hopen : s.table.logOpen = true) (hstays : ¬ s.table.CompactsNext) :
    s'.dir = DetsTable.files serde s.table.name (image.push entry) := by
  cases op with
  | put order key value caller =>
      cases hentry
      obtain ⟨-, -, image', hfiles', -, hlog⟩ := step_put hfiles hs'
      rw [hfiles', hlog hstays, if_pos hopen]
  | deleteKey order key caller =>
      cases hentry
      obtain ⟨-, -, image', hfiles', -, hlog⟩ := step_deleteKey hfiles hs'
      rw [hfiles', hlog hstays, if_pos hopen]
  | compact order => contradiction
  | close => contradiction
  | reopen config => contradiction

theorem cutLog_files (name : String) (image : DetsImage) (entry : DetsLogEntry) (k : Nat) :
    (DetsTable.files serde name (image.push entry)).cutLog k =
      DetsTable.tailed serde name image
        ((encode (DetsTable.entryText serde entry)).take k) := by
  have hcut := cutLastLine_writeLines (image.log.map (DetsTable.entryText serde))
    (DetsTable.oneLine_entryText serde entry) k
  have hbytes : DetsTable.logBytes serde (image.log ++ [entry]) =
      writeLines (image.log.map (DetsTable.entryText serde) ++
        [DetsTable.entryText serde entry]) := by
    rw [DetsTable.logBytes, List.map_append]
    rfl
  have hlog : cutLastLine (DetsTable.logBytes serde (image.log ++ [entry])) k =
      DetsTable.logBytes serde image.log ++ (encode (DetsTable.entryText serde entry)).take k := by
    rw [hbytes, hcut]
    rfl
  simp only [DetsDir.cutLog, DetsTable.files, DetsImage.push, DetsTable.tailed, Option.map_some,
    hlog]

theorem tailed_nil (name : String) (image : DetsImage) :
    DetsTable.tailed serde name image [] = DetsTable.files serde name image := by
  rw [DetsTable.tailed, List.append_nil]
  rfl

/-! ## The cases of the cut -/

variable {name : String} {image : DetsImage} {cache : DetsCache}

theorem Survives.reopens {dir : DetsDir} (h : Survives serde name dir cache) :
    Reopens serde name dir cache := by
  intro config
  obtain ⟨table, dir', hopen, hlookup, -⟩ := h config
  exact ⟨table, dir', hopen, hlookup⟩

/-- Files without a tear survive when they open to the map. -/
theorem survives_files (h : Reopens serde name (DetsTable.files serde name image) cache) :
    Survives serde name (DetsTable.files serde name image) cache := by
  intro config
  have hlookup := (reopens_files name image cache).mp h
  refine ⟨_, _, DetsTable.open_files serde name config image, hlookup, ?_⟩
  intro later hguarded pre hpre s hs
  have hstart : InSync serde ⟨.opened name config image.cache, DetsTable.files serde name image⟩ :=
    ⟨image, rfl, fun _ => rfl⟩
  exact (GuardedRun.invariant_of_guardedOk (InSync serde) hstart
    (fun _ _ _ h hlogged hs' => h.step hlogged hs') (hguarded.shorten hpre) hs).durable

/-- With only the newline lost, the next entry is written onto the same line. -/
theorem not_survives_whole (entry : DetsLogEntry) :
    ¬ Survives serde name (DetsTable.tailed serde name image
      (encode (DetsTable.entryText serde entry))) cache := by
  intro h
  obtain ⟨table, dir', hopen, -, hlater⟩ := h ⟨.public, 0, none, 0, 2⟩
  rw [DetsTable.open_whole] at hopen
  cases hopen
  have hguarded : GuardedRun.GuardedOk (step serde) Logged
      ⟨.opened name ⟨.public, 0, none, 0, 2⟩ (image.push entry).cache,
        DetsTable.tailed serde name image (encode (DetsTable.entryText serde entry))⟩
      [.deleteKey .latestFirst "" 0] :=
    .cons (.inr (.inr rfl)) fun _ _ => .nil
  have hdurable := hlater _ hguarded _ List.prefix_rfl _ rfl
  refine DetsTable.not_reopens_glued entry ⟨"delete", "", none⟩ _ (hdurable.congr rfl ?_)
  exact congrArg some (List.append_assoc _ _ _).symm

theorem not_survives_torn (entry : DetsLogEntry) {k : Nat} (hk : k ≠ 0) :
    ¬ Survives serde name (DetsTable.tailed serde name image
      ((encode (DetsTable.entryText serde entry)).take k)) cache := by
  intro h
  by_cases hlt : k < (encode (DetsTable.entryText serde entry)).length
  · exact DetsTable.not_reopens_torn entry hk hlt _ h.reopens
  · rw [List.take_of_length_le (Nat.le_of_not_lt hlt)] at h
    exact not_survives_whole entry h

/-- Of files of an image, being in sync is a matter of what the image opens to. -/
theorem inSync_files (hfiles : s.dir = DetsTable.files serde s.table.name image) :
    s.InSync serde ↔ ∀ k, image.cache.lookup k = s.table.cache.lookup k := by
  constructor
  · intro h
    have hdurable := h.durable
    rw [Durable, hfiles, reopens_files] at hdurable
    exact hdurable
  · intro h
    exact ⟨image, hfiles, h⟩

/-- Whatever was written before: after a crash that cuts the line of a write, the table
recovers exactly if nothing is left of the line, and the files held the map before the write. -/
theorem torn_log_recovered_iff {config : DetsConfig} {ops : List DetsOp}
    (hs : run serde name config ops = .ok s) {entry : DetsLogEntry}
    (hentry : op.entry? = some entry) (hs' : s.step serde op = .ok s')
    (hopen : s.table.logOpen = true) (hstays : ¬ s.table.CompactsNext) (k : Nat) :
    Survives serde s.table.name (s'.dir.cutLog k) s.table.cache ↔ k = 0 ∧ s.InSync serde := by
  obtain ⟨image, hfiles⟩ := formed_run hs
  rw [files_of_append hfiles hentry hs' hopen hstays, cutLog_files, inSync_files hfiles]
  by_cases hk : k = 0
  · rw [hk, List.take_zero, tailed_nil, ← reopens_files s.table.name]
    exact ⟨fun h => ⟨rfl, h.reopens⟩, fun h => survives_files h.2⟩
  · exact iff_of_false (not_survives_torn entry hk) fun h => hk h.1

/-! ## One put -/

def newTable : DetsRun :=
  ⟨.opened "t" ⟨.public, 1, none, 100, 100⟩ ∅, DetsTable.files .compact "t" .empty⟩

theorem run_newTable : run .compact "t" ⟨.public, 1, none, 100, 100⟩ [] = .ok newTable := by
  rw [run, start_eq]
  rfl

theorem not_compactsNext_newTable : ¬ newTable.table.CompactsNext :=
  (by decide : ¬ 0 + 1 ≥ 100)

theorem step_newTable :
    ∃ s', newTable.step .compact (.put .latestFirst "k" (.bool true) 1) = .ok s' :=
  ⟨_, rfl⟩

/-- The one put of a table is cut away as a whole. -/
theorem torn_log_recovered_one_put :
    ∃ s', newTable.step .compact (.put .latestFirst "k" (.bool true) 1) = .ok s' ∧
      Survives .compact "t" (s'.dir.cutLog 0) newTable.table.cache := by
  obtain ⟨s', hs'⟩ := step_newTable
  refine ⟨s', hs', ?_⟩
  exact (torn_log_recovered_iff run_newTable rfl hs' rfl not_compactsNext_newTable 0).mpr
    ⟨rfl, inSync_start _ _⟩

/-- Only the first byte of the line of a put is left. -/
theorem torn_log_not_recovered :
    ∃ s', newTable.step .compact (.put .latestFirst "k" (.bool true) 1) = .ok s' ∧
      ¬ Survives .compact "t" (s'.dir.cutLog 1) newTable.table.cache := by
  obtain ⟨s', hs'⟩ := step_newTable
  refine ⟨s', hs', ?_⟩
  have hfiles : newTable.dir = DetsTable.files .compact newTable.table.name .empty := rfl
  rw [files_of_append hfiles rfl hs' rfl not_compactsNext_newTable, cutLog_files]
  exact not_survives_torn _ Nat.one_ne_zero

end DetsRun

end Zeptobeam
