/-
What the files of a disk-backed table stand for: the entries of the snapshot, if
there is one, and the entries of the log.  Opening replays the log over the
snapshot, and every write leaves files of this form.
-/
import Zeptobeam.Dets
import Zeptobeam.Lib.GuardedRun

namespace Zeptobeam

open LineFile

structure DetsImage where
  snapshot : Option (List (Sigma fun _ : String => Json))
  log : List DetsLogEntry

namespace DetsImage

def empty : DetsImage := ⟨none, []⟩

/-- A compacted table: the cache's entries and an empty log. -/
def compacted (order : HashOrder) (cache : DetsCache) : DetsImage :=
  ⟨some (order.walk cache), []⟩

def push (image : DetsImage) (entry : DetsLogEntry) : DetsImage :=
  { image with log := image.log ++ [entry] }

def records (image : DetsImage) : List (ReplayLog.Record String Json) :=
  image.log.filterMap fun entry => entry.reread.record?

/-- What opening the files gives. -/
def cache (image : DetsImage) : DetsCache :=
  image.records.foldl ReplayLog.applyTo (ReplayLog.load (image.snapshot.getD []))

theorem lookup_compacted (order : HashOrder) (cache : DetsCache) (k : String) :
    (compacted order cache).cache.lookup k = cache.lookup k :=
  ReplayLog.lookup_load_of_perm (order.walk_perm cache) k

theorem lookup_push (image : DetsImage) (entry : DetsLogEntry) (k : String) :
    (image.push entry).cache.lookup k =
      entry.reread.record?.elim (image.cache.lookup k) fun record =>
        record.apply (fun k => image.cache.lookup k) k := by
  cases hrecord : entry.reread.record? with
  | none => simp [cache, records, push, hrecord]
  | some record =>
      simp only [cache, records, push, List.filterMap_append, List.filterMap_cons, hrecord,
        List.filterMap_nil, List.foldl_append, List.foldl_cons, List.foldl_nil,
        Option.elim_some]
      exact ReplayLog.lookup_applyTo _ record k

/-- A put of `null` leaves no trace in what the log is read back as. -/
theorem lookup_push_put (image : DetsImage) (key : String) (value : Json) (k : String) :
    (image.push ⟨"put", key, some value⟩).cache.lookup k =
      if value = .null then image.cache.lookup k
      else (image.cache.insert key value).lookup k := by
  rw [lookup_push]
  by_cases hnull : value = .null
  · simp [DetsLogEntry.reread, DetsLogEntry.record?, hnull, Option.filter_some]
  · rw [if_neg hnull]
    simp only [DetsLogEntry.reread, DetsLogEntry.record?, hnull, Option.filter_some,
      decide_not, decide_false, Bool.not_false, ↓reduceIte, Option.map_some,
      Option.elim_some]
    exact (ReplayLog.lookup_applyTo image.cache (.put key value) k).symm

theorem lookup_push_delete (image : DetsImage) (key k : String) :
    (image.push ⟨"delete", key, none⟩).cache.lookup k =
      (image.cache.erase key).lookup k := by
  rw [lookup_push]
  simp only [DetsLogEntry.reread, DetsLogEntry.record?, Option.filter_none]
  exact (ReplayLog.lookup_applyTo image.cache (.delete key) k).symm

end DetsImage

namespace DetsTable

variable (serde : SerdeJson)

/-- The snapshot file that holds the given entries. -/
def datBytes (name : String) (entries : List (Sigma fun _ : String => Json)) : Bytes :=
  writeLines (serde.toString (DetsHeader.toJson ⟨schemaVersion, "dets", name⟩) ::
    entries.map fun entry => serde.toString (DetsEntry.toJson ⟨entry.1, entry.2⟩))

def logBytes (log : List DetsLogEntry) : Bytes :=
  writeLines (log.map fun entry => serde.toString entry.toJson)

def files (name : String) (image : DetsImage) : DetsDir :=
  ⟨image.snapshot.map (datBytes serde name), none, some (logBytes serde image.log)⟩

theorem readLines_datBytes (name : String) (entries : List (Sigma fun _ : String => Json)) :
    readLines (datBytes serde name entries) =
      some (serde.toString (DetsHeader.toJson ⟨schemaVersion, "dets", name⟩)) ::
        entries.map fun entry =>
          some (serde.toString (DetsEntry.toJson ⟨entry.1, entry.2⟩)) := by
  rw [datBytes, readLines_writeLines]
  · simp [List.map_map, Function.comp_def]
  · intro text htext
    rcases List.mem_cons.mp htext with rfl | hmem
    · exact serde.toString_oneLine _
    · obtain ⟨entry, _, rfl⟩ := List.mem_map.mp hmem
      exact serde.toString_oneLine _

theorem readLines_logBytes (log : List DetsLogEntry) :
    readLines (logBytes serde log) =
      log.map fun entry => some (serde.toString entry.toJson) := by
  rw [logBytes, readLines_writeLines]
  · simp [List.map_map, Function.comp_def]
  · intro text htext
    obtain ⟨entry, _, rfl⟩ := List.mem_map.mp htext
    exact serde.toString_oneLine _

theorem logBytes_concat (log : List DetsLogEntry) (entry : DetsLogEntry) :
    logBytes serde (log ++ [entry]) = logBytes serde log ++ line serde entry.toJson := by
  simp [logBytes, writeLines, line]

theorem snapshotBytes_eq (order : HashOrder) (table : DetsTable) :
    snapshotBytes serde order table =
      datBytes serde table.name (order.walk table.cache) := by
  simp [snapshotBytes, datBytes, writeLines, line, List.flatMap_map]

/-! ## Opening -/

/-- A table just opened. -/
def opened (name : String) (config : DetsConfig) (cache : DetsCache) : DetsTable :=
  { config with name, cache, dirtyCount := 0, logOpen := true }

theorem loadDat_entries (entries : List (Sigma fun _ : String => Json)) (cache : DetsCache) :
    loadDat serde false cache (entries.map fun entry =>
        some (serde.toString (DetsEntry.toJson ⟨entry.1, entry.2⟩))) =
      .ok (entries.foldl (fun m entry => m.insert entry.1 entry.2) cache) := by
  induction entries generalizing cache with
  | nil => rfl
  | cons entry entries ih =>
      have hblank : isBlank (serde.toString (DetsEntry.toJson ⟨entry.1, entry.2⟩)) =
          false := serde.toString_obj_not_blank _
      simp [loadDat, hblank, serde.fromStr_toString, ih]

theorem loadDat_datBytes (name : String) (entries : List (Sigma fun _ : String => Json)) :
    loadDat serde true ∅ (readLines (datBytes serde name entries)) =
      .ok (ReplayLog.load entries) := by
  have hblank : isBlank (serde.toString
      (DetsHeader.toJson ⟨schemaVersion, "dets", name⟩)) = false :=
    serde.toString_obj_not_blank _
  simp [readLines_datBytes, loadDat, hblank, serde.fromStr_toString, loadDat_entries,
    ReplayLog.load]

theorem replayLog_entries (log : List DetsLogEntry) (cache : DetsCache) :
    replayLog serde cache (log.map fun entry => some (serde.toString entry.toJson)) =
      .ok ((log.filterMap fun entry => entry.reread.record?).foldl
        ReplayLog.applyTo cache) := by
  induction log generalizing cache with
  | nil => rfl
  | cons entry log ih =>
      have hblank : isBlank (serde.toString entry.toJson) = false :=
        serde.toString_obj_not_blank _
      simp only [List.map_cons, replayLog, hblank, Bool.false_eq_true, ↓reduceIte,
        serde.fromStr_toString, Option.bind_some, DetsLogEntry.fromJson_toJson, ih]
      cases hrecord : entry.reread.record? with
      | none => simp [applyLogEntry, hrecord]
      | some record => simp [applyLogEntry, hrecord]

theorem open_eq_ok {name : String} {config : DetsConfig} {dir dir' : DetsDir}
    {table : DetsTable} : «open» serde name config dir = .ok (table, dir') ↔
      ∃ base cache, readDat serde dir.dat = .ok base ∧
        readLog serde base dir.log = .ok cache ∧ opened name config cache = table ∧
        { dir with log := some (dir.log.getD []) } = dir' := by
  simp only [«open», bind, Except.bind]
  cases hdat : readDat serde dir.dat with
  | error e => simp
  | ok base =>
      cases hlog : readLog serde base dir.log with
      | error e => simp [hlog]
      | ok cache => simp [hlog, opened]

theorem open_files (name : String) (config : DetsConfig) (image : DetsImage) :
    «open» serde name config (files serde name image) =
      .ok (opened name config image.cache, files serde name image) := by
  apply (open_eq_ok serde).mpr
  refine ⟨ReplayLog.load (image.snapshot.getD []), image.cache, ?_, ?_, rfl, rfl⟩
  · cases hsnapshot : image.snapshot with
    | none => simp [files, hsnapshot, readDat, ReplayLog.load]
    | some entries => simp [files, hsnapshot, readDat, loadDat_datBytes]
  · simp [files, readLog, readLines_logBytes, replayLog_entries, DetsImage.cache,
      DetsImage.records]

theorem open_empty (name : String) (config : DetsConfig) :
    «open» serde name config .empty =
      .ok (opened name config ∅, files serde name .empty) := by
  apply (open_eq_ok serde).mpr
  exact ⟨∅, ∅, rfl, rfl, rfl, rfl⟩

/-! ## Writing -/

theorem compact_files (order : HashOrder) (table : DetsTable) (image : DetsImage) :
    compact serde order table (files serde table.name image) =
      ({ table with logOpen := true, dirtyCount := 0 },
        files serde table.name (.compacted order table.cache)) := by
  simp [compact, writeSnapshot, renameSnapshot, truncateLog, files, DetsImage.compacted,
    snapshotBytes_eq, logBytes]

theorem appendLog_files (table : DetsTable) (image : DetsImage) (entry : DetsLogEntry) :
    appendLog serde table (files serde table.name image) entry =
      files serde table.name (if table.logOpen then image.push entry else image) := by
  by_cases hopen : table.logOpen
  · simp [appendLog, hopen, files, DetsImage.push, logBytes_concat]
  · simp [appendLog, hopen]

/-- The write makes the table compact itself. -/
def CompactsNext (table : DetsTable) : Prop :=
  table.dirtyCount + 1 ≥ table.compactThreshold

/-- After a write the files hold a compacted image of the new cache, or the old
image with the write's entry when the log is open. -/
theorem write_files (order : HashOrder) (table : DetsTable) (image : DetsImage)
    (entry : DetsLogEntry) (cache : DetsCache) :
    ∃ image', (finishWrite serde order table
        (appendLog serde table (files serde table.name image) entry) cache).2 =
          files serde table.name image' ∧
      (table.CompactsNext → image' = .compacted order cache) ∧
      (¬ table.CompactsNext →
        image' = if table.logOpen then image.push entry else image) := by
  rw [appendLog_files]
  by_cases hcompacts : table.CompactsNext
  · refine ⟨.compacted order cache, ?_, fun _ => rfl, fun hnot => absurd hcompacts hnot⟩
    have hge : table.dirtyCount + 1 ≥ table.compactThreshold := hcompacts
    simp only [finishWrite, hge, ↓reduceIte]
    exact congrArg Prod.snd (compact_files serde order
      { table with cache, dirtyCount := table.dirtyCount + 1 } _)
  · refine ⟨_, ?_, fun hyes => absurd hyes hcompacts, fun _ => rfl⟩
    have hlt : ¬ table.dirtyCount + 1 ≥ table.compactThreshold := hcompacts
    simp only [finishWrite, hlt, ↓reduceIte]

theorem finishWrite_table (order : HashOrder) (table : DetsTable) (dir : DetsDir)
    (cache : DetsCache) :
    (finishWrite serde order table dir cache).1.cache = cache ∧
      (finishWrite serde order table dir cache).1.name = table.name := by
  by_cases hge : table.dirtyCount + 1 ≥ table.compactThreshold
  · simp [finishWrite, hge, compact]
  · simp [finishWrite, hge]

end DetsTable

/-! ## Runs -/

/-- The calls a table sees.  A write and a compaction come with the order in which
the cache would be walked; `reopen` drops the table and opens its files again. -/
inductive DetsOp where
  | put (order : HashOrder) (key : String) (value : Json) (caller : AgentPid)
  | deleteKey (order : HashOrder) (key : String) (caller : AgentPid)
  | compact (order : HashOrder)
  | close
  | reopen (config : DetsConfig)

structure DetsRun where
  table : DetsTable
  dir : DetsDir

namespace DetsRun

variable (serde : SerdeJson)

def start (name : String) (config : DetsConfig) : Except AgentRtError DetsRun := do
  let (table, dir) ← DetsTable.open serde name config .empty
  .ok ⟨table, dir⟩

def step (s : DetsRun) : DetsOp → Except AgentRtError DetsRun
  | .put order key value caller => do
      let (table, dir) ← s.table.put serde order s.dir key value caller
      .ok ⟨table, dir⟩
  | .deleteKey order key caller => do
      let (table, dir) ← s.table.deleteKey serde order s.dir key caller
      .ok ⟨table, dir⟩
  | .compact order =>
      let (table, dir) := s.table.compact serde order s.dir
      .ok ⟨table, dir⟩
  | .close => .ok { s with table := s.table.close }
  | .reopen config => do
      let (table, dir) ← DetsTable.open serde s.table.name config s.dir
      .ok ⟨table, dir⟩

/-- A run on an empty directory in which every call returns `Ok`. -/
def run (name : String) (config : DetsConfig) (ops : List DetsOp) :
    Except AgentRtError DetsRun := do
  let s ← start serde name config
  ops.foldlM (step serde) s

/-- Opening the directory gives a table with the given map. -/
def Reopens (name : String) (dir : DetsDir) (cache : DetsCache) : Prop :=
  ∀ config, ∃ table dir', DetsTable.open serde name config dir = .ok (table, dir') ∧
    ∀ k, table.cache.lookup k = cache.lookup k

variable {serde}

theorem step_put {s s' : DetsRun} {order : HashOrder} {key : String} {value : Json}
    {caller : AgentPid} {image : DetsImage}
    (hfiles : s.dir = DetsTable.files serde s.table.name image)
    (h : s.step serde (.put order key value caller) = .ok s') :
    s'.table.cache = s.table.cache.insert key value ∧
      s'.table.name = s.table.name ∧ ∃ image',
      s'.dir = DetsTable.files serde s.table.name image' ∧
      (s.table.CompactsNext → image' = .compacted order s'.table.cache) ∧
      (¬ s.table.CompactsNext →
        image' = if s.table.logOpen then image.push ⟨"put", key, some value⟩ else image) := by
  simp only [step, DetsTable.put, hfiles] at h
  cases hcheck : s.table.checkWrite caller with
  | error e => simp [hcheck, bind, Except.bind] at h
  | ok _ =>
      by_cases hfull : key ∉ s.table.cache ∧ s.table.cache.entries.length ≥ s.table.maxEntries
      · simp [hcheck, hfull, bind, Except.bind] at h
      · simp only [hcheck, hfull, ↓reduceIte, bind, Except.bind, Except.ok.injEq] at h
        subst h
        have htable := DetsTable.finishWrite_table serde order s.table
          (DetsTable.appendLog serde s.table (DetsTable.files serde s.table.name image)
            ⟨"put", key, some value⟩) (s.table.cache.insert key value)
        refine ⟨htable.1, htable.2, ?_⟩
        rw [htable.1]
        exact DetsTable.write_files serde order s.table image _ _

theorem step_deleteKey {s s' : DetsRun} {order : HashOrder} {key : String}
    {caller : AgentPid} {image : DetsImage}
    (hfiles : s.dir = DetsTable.files serde s.table.name image)
    (h : s.step serde (.deleteKey order key caller) = .ok s') :
    s'.table.cache = s.table.cache.erase key ∧ s'.table.name = s.table.name ∧ ∃ image',
      s'.dir = DetsTable.files serde s.table.name image' ∧
      (s.table.CompactsNext → image' = .compacted order s'.table.cache) ∧
      (¬ s.table.CompactsNext →
        image' = if s.table.logOpen then image.push ⟨"delete", key, none⟩ else image) := by
  simp only [step, DetsTable.deleteKey, hfiles] at h
  cases hcheck : s.table.checkWrite caller with
  | error e => simp [hcheck, bind, Except.bind] at h
  | ok _ =>
      simp only [hcheck, bind, Except.bind, Except.ok.injEq] at h
      subst h
      have htable := DetsTable.finishWrite_table serde order s.table
        (DetsTable.appendLog serde s.table (DetsTable.files serde s.table.name image)
          ⟨"delete", key, none⟩) (s.table.cache.erase key)
      refine ⟨htable.1, htable.2, ?_⟩
      rw [htable.1]
      exact DetsTable.write_files serde order s.table image _ _

theorem step_compact {s s' : DetsRun} {order : HashOrder} {image : DetsImage}
    (hfiles : s.dir = DetsTable.files serde s.table.name image)
    (h : s.step serde (.compact order) = .ok s') :
    s'.table = { s.table with logOpen := true, dirtyCount := 0 } ∧
      s'.dir = DetsTable.files serde s.table.name (.compacted order s.table.cache) := by
  simp only [step, hfiles, DetsTable.compact_files, Except.ok.injEq] at h
  subst h
  exact ⟨rfl, rfl⟩

theorem step_reopen {s s' : DetsRun} {config : DetsConfig} {image : DetsImage}
    (hfiles : s.dir = DetsTable.files serde s.table.name image)
    (h : s.step serde (.reopen config) = .ok s') :
    s'.table.cache = image.cache ∧ s'.table.name = s.table.name ∧ s'.dir = s.dir := by
  simp only [step, hfiles, DetsTable.open_files, bind, Except.bind, Except.ok.injEq] at h
  subst h
  exact ⟨rfl, rfl, hfiles.symm⟩

end DetsRun

end Zeptobeam
