/-
Writes of a disk-backed table that fail: the operating system refuses one step of the append
to the log or of the compaction, and the call returns an error.  What the error leaves of the
map and of the files, and when that is what they were before.
-/
import Zeptobeam.DetsTornLog

namespace Zeptobeam

open LineFile

/-! ## Steps that are refused -/

/-- The append to the log stops after some bytes; the rest stays in the writer's buffer, or is
dropped. -/
structure LogFault where
  flushing : Bool
  written : Nat
  kept : Bool

def LogFault.error (fault : LogFault) : AgentRtError :=
  .ets (if fault.flushing then "flush log: " else "write log: ")

/-- The step of a compaction that fails, with the bytes the temporary file has then. -/
inductive CompactFault where
  | createTmp
  | writeHeader (written : Nat)
  | writeEntry (written : Nat)
  | flush (written : Nat)
  | sync (written : Nat)
  | rename
  | openDir
  | syncDir
  | truncateLog

namespace CompactFault

def error : CompactFault → AgentRtError
  | .createTmp => .ets "create dat.tmp: "
  | .writeHeader _ => .ets "write header: "
  | .writeEntry _ => .ets "write entry: "
  | .flush _ => .ets "flush: "
  | .sync _ => .ets "sync: "
  | .rename => .ets "rename: "
  | .openDir => .ets "open dir for fsync: "
  | .syncDir => .ets "fsync dir: "
  | .truncateLog => .ets "truncate log: "

/-- The files as the failed step leaves them. -/
def stopped (serde : SerdeJson) (order : HashOrder) (table : DetsTable) (dir : DetsDir) :
    CompactFault → DetsDir
  | .createTmp => dir
  | .writeHeader written | .writeEntry written | .flush written | .sync written =>
      { dir with datTmp := some ((DetsTable.snapshotBytes serde order table).take written) }
  | .rename => DetsTable.writeSnapshot serde order table dir
  | .openDir | .syncDir | .truncateLog =>
      DetsTable.renameSnapshot (DetsTable.writeSnapshot serde order table dir)

end CompactFault

/-- No byte of the line is left, in the file or in the buffer. -/
def LogFault.LeavesNothing (fault : LogFault) : Prop :=
  fault.written = 0 ∧ fault.kept = false

/-- The steps that fail when a write gets to them. -/
structure DetsFaults where
  log : Option LogFault
  compaction : Option CompactFault

/-- What the caller gets, with the table and its files, and what is left in the buffer of the
log writer. -/
structure DetsOutcome where
  result : Except AgentRtError Unit
  run : DetsRun
  buffer : Bytes

/-- The files after the table is dropped, which may write more of the buffer. -/
def DetsOutcome.dropped (outcome : DetsOutcome) (flushed : Nat) : DetsDir :=
  { outcome.run.dir with
    log := outcome.run.dir.log.map (· ++ outcome.buffer.take flushed) }

namespace DetsTable

variable (serde : SerdeJson)

def appendLogWith (faults : DetsFaults) (table : DetsTable) (dir : DetsDir)
    (entry : DetsLogEntry) : Except AgentRtError Unit × DetsDir × Bytes :=
  match table.logOpen, faults.log with
  | true, some fault =>
      let bytes := line serde entry.toJson
      (.error fault.error, { dir with log := dir.log.map (· ++ bytes.take fault.written) },
        if fault.kept then bytes.drop fault.written else [])
  | _, _ => (.ok (), appendLog serde table dir entry, [])

def compactWith (fault : Option CompactFault) (order : HashOrder) (table : DetsTable)
    (dir : DetsDir) : DetsOutcome :=
  match fault with
  | none =>
      let (table, dir) := compact serde order table dir
      ⟨.ok (), ⟨table, dir⟩, []⟩
  | some fault => ⟨.error fault.error, ⟨table, fault.stopped serde order table dir⟩, []⟩

def finishWriteWith (faults : DetsFaults) (order : HashOrder) (table : DetsTable)
    (dir : DetsDir) (cache : DetsCache) : DetsOutcome :=
  let table := { table with cache, dirtyCount := table.dirtyCount + 1 }
  if table.dirtyCount ≥ table.compactThreshold then
    compactWith serde faults.compaction order table dir
  else ⟨.ok (), ⟨table, dir⟩, []⟩

/-- The append and, when it worked, the end of the write. -/
def writeWith (faults : DetsFaults) (order : HashOrder) (table : DetsTable) (dir : DetsDir)
    (entry : DetsLogEntry) (cache : DetsCache) : DetsOutcome :=
  match appendLogWith serde faults table dir entry with
  | (.error e, dir, buffer) => ⟨.error e, ⟨table, dir⟩, buffer⟩
  | (.ok (), dir, _) => finishWriteWith serde faults order table dir cache

def putWith (faults : DetsFaults) (order : HashOrder) (table : DetsTable) (dir : DetsDir)
    (key : String) (value : Json) (caller : AgentPid) : DetsOutcome :=
  match table.checkWrite caller with
  | .error e => ⟨.error e, ⟨table, dir⟩, []⟩
  | .ok () =>
      if key ∉ table.cache ∧ table.cache.entries.length ≥ table.maxEntries then
        ⟨.error (.ets "table full"), ⟨table, dir⟩, []⟩
      else
        writeWith serde faults order table dir ⟨"put", key, some value⟩
          (table.cache.insert key value)

def deleteKeyWith (faults : DetsFaults) (order : HashOrder) (table : DetsTable)
    (dir : DetsDir) (key : String) (caller : AgentPid) : DetsOutcome :=
  match table.checkWrite caller with
  | .error e => ⟨.error e, ⟨table, dir⟩, []⟩
  | .ok () =>
      writeWith serde faults order table dir ⟨"delete", key, none⟩ (table.cache.erase key)

end DetsTable

/-! ## Writes -/

inductive DetsWrite where
  | put (order : HashOrder) (key : String) (value : Json) (caller : AgentPid)
  | deleteKey (order : HashOrder) (key : String) (caller : AgentPid)

namespace DetsWrite

def op : DetsWrite → DetsOp
  | .put order key value caller => .put order key value caller
  | .deleteKey order key caller => .deleteKey order key caller

def order : DetsWrite → HashOrder
  | .put order _ _ _ => order
  | .deleteKey order _ _ => order

def entry : DetsWrite → DetsLogEntry
  | .put _ key value _ => ⟨"put", key, some value⟩
  | .deleteKey _ key _ => ⟨"delete", key, none⟩

/-- The map after the write. -/
def cache (table : DetsTable) : DetsWrite → DetsCache
  | .put _ key value _ => table.cache.insert key value
  | .deleteKey _ key _ => table.cache.erase key

/-- The checks a write makes before it writes. -/
def check (table : DetsTable) : DetsWrite → Except AgentRtError Unit
  | .put _ key _ caller => do
      table.checkWrite caller
      if key ∉ table.cache ∧ table.cache.entries.length ≥ table.maxEntries then
        .error (.ets "table full")
      else .ok ()
  | .deleteKey _ _ caller => table.checkWrite caller

section Check

variable {table : DetsTable} {order : HashOrder} {key : String} {value : Json} {caller : AgentPid}

theorem check_put_eq_ok : (put order key value caller).check table = .ok () ↔
    table.checkWrite caller = .ok () ∧
      ¬ (key ∉ table.cache ∧ table.cache.entries.length ≥ table.maxEntries) := by
  simp only [check, bind, Except.bind]
  cases haccess : table.checkWrite caller with
  | error e => simp
  | ok _ =>
      by_cases hfull : key ∉ table.cache ∧ table.cache.entries.length ≥ table.maxEntries
      · simp [hfull]
      · simp [hfull]

theorem check_put_eq_error {e : AgentRtError}
    (hcheck : (put order key value caller).check table = .error e) :
    table.checkWrite caller = .error e ∨ table.checkWrite caller = .ok () ∧
      (key ∉ table.cache ∧ table.cache.entries.length ≥ table.maxEntries) ∧
        .ets "table full" = e := by
  simp only [check, bind, Except.bind] at hcheck
  cases haccess : table.checkWrite caller with
  | error e' => simpa [haccess] using hcheck
  | ok _ =>
      simp only [haccess] at hcheck
      split_ifs at hcheck with hfull
      exact .inr ⟨rfl, hfull, Except.error.inj hcheck⟩

end Check

/-- The write does not change the map. -/
def Idle (table : DetsTable) : DetsWrite → Prop
  | .put _ key value _ => table.cache.lookup key = some value
  | .deleteKey _ key _ => key ∉ table.cache

/-- The write's line does not change what the files open to. -/
def Unread (table : DetsTable) (write : DetsWrite) : Prop :=
  write.Idle table ∨ write.entry.value = some .null

/-- The files hold the write also when it does not compact the table. -/
def Written (table : DetsTable) (write : DetsWrite) : Prop :=
  write.Idle table ∨ (table.logOpen = true ∧ write.entry.value ≠ some .null)

end DetsWrite

/-- The calls of a table, of which writes and compactions may fail. -/
inductive DetsCall where
  | write (write : DetsWrite) (faults : DetsFaults)
  | compact (order : HashOrder) (fault : Option CompactFault)
  | close
  | reopen (config : DetsConfig)

namespace DetsRun

variable (serde : SerdeJson)

def attempt (s : DetsRun) (faults : DetsFaults) : DetsWrite → DetsOutcome
  | .put order key value caller =>
      DetsTable.putWith serde faults order s.table s.dir key value caller
  | .deleteKey order key caller =>
      DetsTable.deleteKeyWith serde faults order s.table s.dir key caller

/-- A write that returns an error leaves the map, and files that open to it. -/
def Atomic (s : DetsRun) (write : DetsWrite) (faults : DetsFaults) : Prop :=
  ∀ e, (s.attempt serde faults write).result = .error e →
    (∀ k, (s.attempt serde faults write).run.table.cache.lookup k = s.table.cache.lookup k) ∧
    ∀ flushed, Reopens serde s.table.name
      ((s.attempt serde faults write).dropped flushed) s.table.cache

def logFault? (s : DetsRun) (faults : DetsFaults) : Option LogFault :=
  if s.table.logOpen then faults.log else none

def compactFault? (s : DetsRun) (faults : DetsFaults) : Option CompactFault :=
  if s.table.dirtyCount + 1 ≥ s.table.compactThreshold then faults.compaction else none

/-- The error of the write leaves no trace. -/
def Spared (s : DetsRun) (write : DetsWrite) (faults : DetsFaults) : Prop :=
  write.check s.table = .ok () →
    match s.logFault? faults, s.compactFault? faults with
    | some fault, _ => fault.LeavesNothing ∨
        ((encode (DetsTable.entryText serde write.entry)).length ≤ fault.written ∧
          write.Unread s.table)
    | none, some _ => write.Idle s.table
    | none, none => True

variable {serde} {s : DetsRun} {write : DetsWrite} {faults : DetsFaults}

/-- The table of a write that was appended. -/
def appended (s : DetsRun) (write : DetsWrite) : DetsTable :=
  { s.table with cache := write.cache s.table, dirtyCount := s.table.dirtyCount + 1 }

theorem attempt_denied {e : AgentRtError} (hcheck : write.check s.table = .error e) :
    s.attempt serde faults write = ⟨.error e, s, []⟩ := by
  cases write with
  | put order key value caller =>
      simp only [attempt, DetsTable.putWith]
      rcases DetsWrite.check_put_eq_error hcheck with haccess | ⟨haccess, hfull, rfl⟩
      · simp only [haccess]
      · simp only [haccess, if_pos hfull]
  | deleteKey order key caller =>
      have haccess : s.table.checkWrite caller = .error e := hcheck
      simp only [attempt, DetsTable.deleteKeyWith, haccess]

theorem attempt_allowed (hcheck : write.check s.table = .ok ()) :
    s.attempt serde faults write = DetsTable.writeWith serde faults write.order s.table s.dir
      write.entry (write.cache s.table) := by
  cases write with
  | put order key value caller =>
      obtain ⟨haccess, hroom⟩ := DetsWrite.check_put_eq_ok.mp hcheck
      simp only [attempt, DetsTable.putWith, haccess, if_neg hroom]
      rfl
  | deleteKey order key caller =>
      have haccess : s.table.checkWrite caller = .ok () := hcheck
      simp only [attempt, DetsTable.deleteKeyWith, haccess]
      rfl

theorem attempt_logFault {fault : LogFault} (hcheck : write.check s.table = .ok ())
    (hfault : s.logFault? faults = some fault) :
    s.attempt serde faults write =
      ⟨.error fault.error,
        ⟨s.table, { s.dir with
          log := s.dir.log.map
            (· ++ (DetsTable.line serde write.entry.toJson).take fault.written) }⟩,
        if fault.kept then (DetsTable.line serde write.entry.toJson).drop fault.written
        else []⟩ := by
  have hopen : s.table.logOpen = true ∧ faults.log = some fault := by
    by_cases hopen : s.table.logOpen = true
    · rw [logFault?, if_pos hopen] at hfault
      exact ⟨hopen, hfault⟩
    · rw [logFault?, if_neg hopen] at hfault
      cases hfault
  rw [attempt_allowed hcheck, DetsTable.writeWith, DetsTable.appendLogWith, hopen.1, hopen.2]

theorem appendLogWith_of_none (hnone : s.logFault? faults = none) :
    DetsTable.appendLogWith serde faults s.table s.dir write.entry =
      (.ok (), DetsTable.appendLog serde s.table s.dir write.entry, []) := by
  unfold DetsTable.appendLogWith
  cases hopen : s.table.logOpen with
  | false => rfl
  | true =>
      rw [logFault?, if_pos hopen] at hnone
      rw [hnone]

theorem attempt_compactFault {fault : CompactFault} (hcheck : write.check s.table = .ok ())
    (hnone : s.logFault? faults = none) (hfault : s.compactFault? faults = some fault) :
    s.attempt serde faults write =
      ⟨.error fault.error,
        ⟨s.appended write, fault.stopped serde write.order (s.appended write)
          (DetsTable.appendLog serde s.table s.dir write.entry)⟩, []⟩ := by
  have hdue : s.table.dirtyCount + 1 ≥ s.table.compactThreshold ∧
      faults.compaction = some fault := by
    by_cases hdue : s.table.dirtyCount + 1 ≥ s.table.compactThreshold
    · rw [compactFault?, if_pos hdue] at hfault
      exact ⟨hdue, hfault⟩
    · rw [compactFault?, if_neg hdue] at hfault
      cases hfault
  rw [attempt_allowed hcheck, DetsTable.writeWith, appendLogWith_of_none hnone]
  simp only [DetsTable.finishWriteWith, if_pos hdue.1, hdue.2]
  rfl

theorem attempt_done (hcheck : write.check s.table = .ok ())
    (hlog : s.logFault? faults = none) (hcompact : s.compactFault? faults = none) :
    ∃ finished, finished = DetsTable.finishWrite serde write.order s.table
        (DetsTable.appendLog serde s.table s.dir write.entry) (write.cache s.table) ∧
      s.attempt serde faults write = ⟨.ok (), ⟨finished.1, finished.2⟩, []⟩ := by
  refine ⟨_, rfl, ?_⟩
  rw [attempt_allowed hcheck, DetsTable.writeWith, appendLogWith_of_none hlog]
  by_cases hdue : s.table.dirtyCount + 1 ≥ s.table.compactThreshold
  · rw [compactFault?, if_pos hdue] at hcompact
    simp only [DetsTable.finishWriteWith, DetsTable.finishWrite, if_pos hdue, hcompact]
    rfl
  · simp only [DetsTable.finishWriteWith, DetsTable.finishWrite, if_neg hdue]

/-- Without a fault that strikes, the call is the step of the table. -/
theorem step_attempt_done (hcheck : write.check s.table = .ok ())
    (hlog : s.logFault? faults = none) (hcompact : s.compactFault? faults = none) :
    s.step serde write.op = .ok (s.attempt serde faults write).run := by
  obtain ⟨finished, hfinished, hdone⟩ := attempt_done hcheck hlog hcompact
  rw [hdone]
  cases write with
  | put order key value caller =>
      obtain ⟨haccess, hroom⟩ := DetsWrite.check_put_eq_ok.mp hcheck
      simp only [DetsWrite.op, step, DetsTable.put, haccess, if_neg hroom, bind, Except.bind]
      rw [hfinished]
      rfl
  | deleteKey order key caller =>
      have haccess : s.table.checkWrite caller = .ok () := hcheck
      simp only [DetsWrite.op, step, DetsTable.deleteKey, haccess, bind, Except.bind]
      rw [hfinished]
      rfl

/-- A call that is not allowed to write fails like the step of the table. -/
theorem step_denied {e : AgentRtError} (hcheck : write.check s.table = .error e) :
    s.step serde write.op = .error e := by
  cases write with
  | put order key value caller =>
      simp only [DetsWrite.op, step, DetsTable.put, bind, Except.bind]
      rcases DetsWrite.check_put_eq_error hcheck with haccess | ⟨haccess, hfull, rfl⟩
      · simp only [haccess]
      · simp only [haccess, if_pos hfull]
  | deleteKey order key caller =>
      have haccess : s.table.checkWrite caller = .error e := hcheck
      simp only [DetsWrite.op, step, DetsTable.deleteKey, haccess, bind, Except.bind]

/-! ## The maps -/

theorem lookup_cache_of_idle (hidle : write.Idle s.table) (k : String) :
    (write.cache s.table).lookup k = s.table.cache.lookup k := by
  cases write with
  | put order key value caller => exact lookup_insert_same hidle k
  | deleteKey order key caller => exact lookup_erase_absent hidle k

theorem idle_of_lookup_cache
    (hsame : ∀ k, (write.cache s.table).lookup k = s.table.cache.lookup k) :
    write.Idle s.table := by
  cases write with
  | put order key value caller =>
      have hkey := hsame key
      simp only [DetsWrite.cache, AList.lookup_insert] at hkey
      exact hkey.symm
  | deleteKey order key caller =>
      have hkey := hsame key
      simp only [DetsWrite.cache, AList.lookup_erase] at hkey
      exact AList.lookup_eq_none.mp hkey.symm

/-- The line of the write read behind files that hold the map. -/
theorem lookup_push_iff {image : DetsImage}
    (hlookup : ∀ k, image.cache.lookup k = s.table.cache.lookup k) :
    (∀ k, (image.push write.entry).cache.lookup k = s.table.cache.lookup k) ↔
      write.Unread s.table := by
  cases write with
  | put order key value caller =>
      simp only [DetsWrite.entry, DetsImage.lookup_push_put, DetsWrite.Unread]
      by_cases hnull : value = .null
      · simp only [hnull, or_true, iff_true, ↓reduceIte]
        exact hlookup
      · have hvalue : ¬ some value = some Json.null := fun h => hnull (Option.some.inj h)
        simp only [if_neg hnull, hvalue, or_false]
        constructor
        · intro hsame
          apply idle_of_lookup_cache
          intro k
          rw [← hsame k]
          exact lookup_insert_congr (fun k => (hlookup k).symm) key value k
        · intro hidle k
          rw [lookup_insert_congr hlookup key value k]
          exact lookup_insert_same hidle k
  | deleteKey order key caller =>
      simp only [DetsWrite.entry, DetsImage.lookup_push_delete, DetsWrite.Unread, reduceCtorEq,
        or_false]
      constructor
      · intro hsame
        apply idle_of_lookup_cache
        intro k
        rw [← hsame k]
        exact lookup_erase_congr (fun k => (hlookup k).symm) key k
      · intro hidle k
        rw [lookup_erase_congr hlookup key k]
        exact lookup_erase_absent hidle k

/-- The line of a write read behind files that hold the map, when the write is kept. -/
theorem lookup_push_of_written {image : DetsImage}
    (hlookup : ∀ k, image.cache.lookup k = s.table.cache.lookup k)
    (hwritten : write.Written s.table) (k : String) :
    (if s.table.logOpen then image.push write.entry else image).cache.lookup k =
      (write.cache s.table).lookup k := by
  by_cases hidle : write.Idle s.table
  · rw [lookup_cache_of_idle hidle]
    by_cases hopen : s.table.logOpen = true
    · rw [if_pos hopen]
      exact (lookup_push_iff hlookup).mpr (.inl hidle) k
    · rw [if_neg hopen]
      exact hlookup k
  · obtain ⟨hopen, hnull⟩ := hwritten.resolve_left hidle
    rw [if_pos hopen]
    cases write with
    | put order key value caller =>
        have hvalue : value ≠ .null := fun h => hnull (congrArg some h)
        rw [DetsWrite.entry, DetsImage.lookup_push_put, if_neg hvalue]
        exact lookup_insert_congr hlookup key value k
    | deleteKey order key caller =>
        rw [DetsWrite.entry, DetsImage.lookup_push_delete]
        exact lookup_erase_congr hlookup key k

/-! ## Files that hold the map -/

variable (serde)

/-- The files, but for a temporary snapshot, are those of an image of the map. -/
def Holds (s : DetsRun) : Prop :=
  ∃ image : DetsImage, s.dir.dat = image.snapshot.map (DetsTable.datBytes serde s.table.name) ∧
    s.dir.log = some (DetsTable.logBytes serde image.log) ∧
    ∀ k, image.cache.lookup k = s.table.cache.lookup k

variable {serde}

theorem Holds.durable (h : s.Holds serde) : s.Durable serde := by
  obtain ⟨image, hdat, hlog, hlookup⟩ := h
  have hreopens : Reopens serde s.table.name (DetsTable.files serde s.table.name image)
      s.table.cache := (reopens_files s.table.name image s.table.cache).mpr hlookup
  exact hreopens.congr hdat hlog

theorem Holds.of_lookup {table table' : DetsTable} {dir : DetsDir}
    (h : Holds serde ⟨table, dir⟩) (hname : table'.name = table.name)
    (hlookup : ∀ k, table'.cache.lookup k = table.cache.lookup k) :
    Holds serde ⟨table', dir⟩ := by
  obtain ⟨image, hdat, hlog, hsame⟩ := h
  refine ⟨image, ?_, hlog, fun k => (hsame k).trans (hlookup k).symm⟩
  rw [hdat, hname]

theorem Holds.append (h : s.Holds serde) (hwritten : write.Written s.table) :
    Holds serde ⟨s.appended write, DetsTable.appendLog serde s.table s.dir write.entry⟩ := by
  obtain ⟨image, hdat, hlog, hlookup⟩ := h
  refine ⟨if s.table.logOpen then image.push write.entry else image, ?_, ?_,
    lookup_push_of_written hlookup hwritten⟩
  · by_cases hopen : s.table.logOpen = true
    · simp only [DetsTable.appendLog, hopen, if_true]
      exact hdat
    · simp only [DetsTable.appendLog, hopen, Bool.false_eq_true, if_false]
      exact hdat
  · by_cases hopen : s.table.logOpen = true
    · simp only [DetsTable.appendLog, hopen, if_true, hlog, Option.map_some]
      rw [DetsImage.push, DetsTable.logBytes_concat]
    · simp only [DetsTable.appendLog, hopen, Bool.false_eq_true, if_false]
      exact hlog

/-- A new snapshot under the old log. -/
theorem Holds.rename {table : DetsTable} {dir : DetsDir} (h : Holds serde ⟨table, dir⟩)
    (order : HashOrder) : Holds serde
      ⟨table, DetsTable.renameSnapshot (DetsTable.writeSnapshot serde order table dir)⟩ := by
  have hdurable : Reopens serde table.name dir table.cache := h.durable
  obtain ⟨image, hdat, hlog, -⟩ := h
  have hsnapshot : (DetsTable.files serde table.name
      ⟨some (order.walk table.cache), image.log⟩).dat =
        some (DetsTable.snapshotBytes serde order table) := by
    rw [DetsTable.snapshotBytes_eq]
    rfl
  have hreopens := hdurable.of_snapshot order hsnapshot hlog.symm
  exact ⟨⟨some (order.walk table.cache), image.log⟩,
    (congrArg some (DetsTable.snapshotBytes_eq serde order table)), hlog,
    (reopens_files table.name _ table.cache).mp hreopens⟩

theorem holds_compact (order : HashOrder) (table : DetsTable) (dir : DetsDir) :
    Holds serde ⟨(DetsTable.compact serde order table dir).1,
      (DetsTable.compact serde order table dir).2⟩ :=
  ⟨.compacted order table.cache, congrArg some (DetsTable.snapshotBytes_eq serde order table),
    rfl, DetsImage.lookup_compacted order table.cache⟩

/-- A compaction that stops leaves files of the map. -/
theorem Holds.stopped {table : DetsTable} {dir : DetsDir} (h : Holds serde ⟨table, dir⟩)
    (order : HashOrder) (fault : CompactFault) :
    Holds serde ⟨table, fault.stopped serde order table dir⟩ := by
  cases fault with
  | createTmp | writeHeader | writeEntry | flush | sync | rename => exact h
  | openDir | syncDir | truncateLog => exact h.rename order

/-! ## Lines that are cut -/

/-- The first character of an entry is not all of it. -/
theorem one_lt_length_entryText (entry : DetsLogEntry) :
    1 < (encode (DetsTable.entryText serde entry)).length := by
  obtain ⟨cs, hcs⟩ := DetsTable.entryText_head serde entry
  have hrest : cs ≠ [] := by
    rintro rfl
    obtain ⟨cs', hempty⟩ := serde.toString_obj []
    have hfront : DetsTable.entryText serde entry <+: serde.toString (.obj []) := by
      rw [hcs, hempty]
      exact List.cons_prefix_cons.mpr ⟨rfl, List.nil_prefix⟩
    have hread : serde.fromStr (DetsTable.entryText serde entry) = some entry.toJson :=
      serde.fromStr_toString entry.toJson
    by_cases hsame : DetsTable.entryText serde entry = serde.toString (.obj [])
    · rw [hsame, serde.fromStr_toString] at hread
      cases hread
    · rw [serde.fromStr_torn hfront hsame] at hread
      cases hread
  have hsplit : encode ('{' :: cs) = encode ['{'] ++ encode cs := encode_append ['{'] cs
  have hone : (encode ['{']).length = 1 := by decide
  have hpos := List.length_pos_of_ne_nil (encode_ne_nil hrest)
  rw [hcs, hsplit, List.length_append, hone]
  omega

/-- Behind files that hold the map, the bytes of a line that are not all of its text. -/
theorem not_reopens_cut {name : String} {image : DetsImage} (entry : DetsLogEntry) {k : Nat}
    (hk : k ≠ 0) (hlt : k < (encode (DetsTable.entryText serde entry)).length)
    (cache : DetsCache) :
    ¬ Reopens serde name (DetsTable.tailed serde name image
      ((DetsTable.line serde entry.toJson).take k)) cache := by
  have hcut : (DetsTable.line serde entry.toJson).take k =
      (encode (DetsTable.entryText serde entry)).take k :=
    List.take_append_of_le_length (Nat.le_of_lt hlt)
  rw [hcut]
  exact DetsTable.not_reopens_torn entry hk hlt cache

/-- All of the text of a line is read, with and without the newline. -/
theorem reopens_whole_iff {name : String} {image : DetsImage} (entry : DetsLogEntry) {k : Nat}
    (hk : (encode (DetsTable.entryText serde entry)).length ≤ k) (cache : DetsCache) :
    Reopens serde name (DetsTable.tailed serde name image
        ((DetsTable.line serde entry.toJson).take k)) cache ↔
      ∀ key, (image.push entry).cache.lookup key = cache.lookup key := by
  rw [← reopens_files name]
  rcases Nat.eq_or_lt_of_le hk with heq | hlt
  · have htext : (DetsTable.line serde entry.toJson).take k =
        encode (DetsTable.entryText serde entry) := by
      rw [← heq]
      exact List.take_left
    have hread : ∀ base, DetsTable.readLog serde base (DetsTable.tailed serde name image
          (encode (DetsTable.entryText serde entry))).log =
        DetsTable.readLog serde base (DetsTable.files serde name (image.push entry)).log :=
      fun base => DetsTable.readLog_whole base image.log entry
    rw [htext, reopens_iff, reopens_iff]
    simp only [hread]
    rfl
  · have hline : (DetsTable.line serde entry.toJson).take k =
        DetsTable.line serde entry.toJson := by
      apply List.take_of_length_le
      rw [DetsTable.line, List.length_append]
      exact hlt
    have hfiles : DetsTable.tailed serde name image (DetsTable.line serde entry.toJson) =
        DetsTable.files serde name (image.push entry) := by
      simp only [DetsTable.tailed, DetsTable.files, DetsImage.push, DetsTable.logBytes_concat]
    rw [hline, hfiles]

/-! ## One call -/

/-- The bytes of the line that a failed append leaves, when the table is dropped. -/
theorem reopens_logFault_iff {image : DetsImage} {fault : LogFault}
    (hdat : s.dir.dat = image.snapshot.map (DetsTable.datBytes serde s.table.name))
    (hlog : s.dir.log = some (DetsTable.logBytes serde image.log))
    (hcheck : write.check s.table = .ok ()) (hfault : s.logFault? faults = some fault)
    (flushed : Nat) (cache : DetsCache) :
    Reopens serde s.table.name ((s.attempt serde faults write).dropped flushed) cache ↔
      Reopens serde s.table.name (DetsTable.tailed serde s.table.name image
        ((DetsTable.line serde write.entry.toJson).take
          (if fault.kept then fault.written + flushed else fault.written))) cache := by
  have htail : (DetsTable.line serde write.entry.toJson).take fault.written ++
      (if fault.kept then (DetsTable.line serde write.entry.toJson).drop fault.written
        else []).take flushed =
      (DetsTable.line serde write.entry.toJson).take
        (if fault.kept then fault.written + flushed else fault.written) := by
    cases fault.kept with
    | true => exact List.take_add.symm
    | false => exact (congrArg _ List.take_nil).trans (List.append_nil _)
  have hdropped : ((s.attempt serde faults write).dropped flushed).log =
      (DetsTable.tailed serde s.table.name image
        ((DetsTable.line serde write.entry.toJson).take
          (if fault.kept then fault.written + flushed else fault.written))).log := by
    rw [attempt_logFault hcheck hfault]
    simp only [DetsOutcome.dropped, hlog, Option.map_some, List.append_assoc, htail,
      DetsTable.tailed]
  have hdat' : ((s.attempt serde faults write).dropped flushed).dat =
      (DetsTable.tailed serde s.table.name image
        ((DetsTable.line serde write.entry.toJson).take
          (if fault.kept then fault.written + flushed else fault.written))).dat := by
    rw [attempt_logFault hcheck hfault]
    exact hdat
  exact ⟨fun h => h.congr hdat'.symm hdropped.symm, fun h => h.congr hdat' hdropped⟩

theorem Holds.atomic_logFault_iff (h : s.Holds serde) {fault : LogFault}
    (hcheck : write.check s.table = .ok ()) (hfault : s.logFault? faults = some fault) :
    s.Atomic serde write faults ↔ fault.LeavesNothing ∨
      ((encode (DetsTable.entryText serde write.entry)).length ≤ fault.written ∧
        write.Unread s.table) := by
  obtain ⟨image, hdat, hlog, hlookup⟩ := h
  have hreopens := reopens_logFault_iff hdat hlog hcheck hfault
  have hresult : (s.attempt serde faults write).result = .error fault.error := by
    rw [attempt_logFault hcheck hfault]
  have htable : (s.attempt serde faults write).run.table = s.table := by
    rw [attempt_logFault hcheck hfault]
  constructor
  · intro hatomic
    have hall := (hatomic _ hresult).2
    by_cases hwhole :
        (encode (DetsTable.entryText serde write.entry)).length ≤ fault.written
    · refine .inr ⟨hwhole, (lookup_push_iff hlookup).mp ?_⟩
      have hread := (hreopens 0 _).mp (hall 0)
      rw [Nat.add_zero, ite_self] at hread
      exact (reopens_whole_iff write.entry hwhole _).mp hread
    · have hlt := Nat.lt_of_not_le hwhole
      have hzero : fault.written = 0 := by
        by_contra hwritten
        have hread := (hreopens 0 _).mp (hall 0)
        rw [Nat.add_zero, ite_self] at hread
        exact not_reopens_cut write.entry hwritten hlt _ hread
      refine .inl ⟨hzero, ?_⟩
      by_contra hkept
      have hread := (hreopens 1 _).mp (hall 1)
      rw [if_pos (Bool.of_not_eq_false hkept), hzero] at hread
      exact not_reopens_cut write.entry Nat.one_ne_zero (one_lt_length_entryText write.entry) _
        hread
  · intro hspared e he
    refine ⟨fun k => by rw [htable], fun flushed => (hreopens flushed _).mpr ?_⟩
    rcases hspared with ⟨hzero, hkept⟩ | ⟨hwhole, hunread⟩
    · rw [hkept, hzero, if_neg Bool.false_ne_true, List.take_zero, tailed_nil]
      exact (reopens_files _ image _).mpr hlookup
    · apply (reopens_whole_iff write.entry _ _).mpr
      · exact (lookup_push_iff hlookup).mpr hunread
      · cases fault.kept with
        | true => exact Nat.le_add_right_of_le hwhole
        | false => exact hwhole

theorem dropped_of_buffer_nil {outcome : DetsOutcome} (hbuffer : outcome.buffer = [])
    {name : String} {cache : DetsCache} (h : Reopens serde name outcome.run.dir cache)
    (flushed : Nat) : Reopens serde name (outcome.dropped flushed) cache := by
  refine h.congr rfl ?_
  rw [DetsOutcome.dropped, hbuffer, List.take_nil]
  simp

theorem Holds.atomic_compactFault_iff (h : s.Holds serde) {fault : CompactFault}
    (hcheck : write.check s.table = .ok ()) (hnone : s.logFault? faults = none)
    (hfault : s.compactFault? faults = some fault) :
    s.Atomic serde write faults ↔ write.Idle s.table := by
  have hattempt : s.attempt serde faults write = _ :=
    attempt_compactFault hcheck hnone hfault
  constructor
  · intro hatomic
    have hsame := (hatomic fault.error (by rw [hattempt])).1
    rw [hattempt] at hsame
    exact idle_of_lookup_cache hsame
  · intro hidle e he
    have hcache : ∀ k, (s.appended write).cache.lookup k = s.table.cache.lookup k :=
      fun k => lookup_cache_of_idle hidle k
    refine ⟨fun k => by rw [hattempt]; exact hcache k, fun flushed => ?_⟩
    apply dropped_of_buffer_nil (by rw [hattempt])
    have hholds : Holds serde ⟨s.table, fault.stopped serde write.order (s.appended write)
        (DetsTable.appendLog serde s.table s.dir write.entry)⟩ :=
      ((h.append (.inl hidle)).stopped write.order fault).of_lookup rfl fun k => (hcache k).symm
    rw [hattempt]
    exact hholds.durable

theorem Holds.atomic_iff (h : s.Holds serde) (write : DetsWrite) (faults : DetsFaults) :
    s.Atomic serde write faults ↔ s.Spared serde write faults := by
  cases hcheck : write.check s.table with
  | error e =>
      have hattempt : s.attempt serde faults write = _ := attempt_denied hcheck
      have hspared : s.Spared serde write faults := fun hok => by
        rw [hcheck] at hok
        cases hok
      refine iff_of_true (fun e' he' => ⟨fun k => by rw [hattempt], fun flushed => ?_⟩) hspared
      apply dropped_of_buffer_nil (by rw [hattempt])
      rw [hattempt]
      exact h.durable
  | ok _ =>
      cases hlog : s.logFault? faults with
      | some fault =>
          rw [h.atomic_logFault_iff hcheck hlog, Spared]
          simp only [hcheck, hlog, true_imp_iff]
      | none =>
          cases hcompact : s.compactFault? faults with
          | some fault =>
              rw [h.atomic_compactFault_iff hcheck hlog hcompact, Spared]
              simp only [hcheck, hlog, hcompact, true_imp_iff]
          | none =>
              obtain ⟨finished, -, hdone⟩ : ∃ finished, _ ∧ s.attempt serde faults write = _ :=
                attempt_done hcheck hlog hcompact
              have hatomic : s.Atomic serde write faults := by
                intro e he
                rw [hdone] at he
                cases he
              have hspared : s.Spared serde write faults := by
                intro _
                rw [hlog, hcompact]
                trivial
              exact iff_of_true hatomic hspared

/-! ## Runs with failing calls -/

variable (serde)

/-- The table and the files after a call, whatever it returns.  The runs looked at leave
nothing in the buffer. -/
def callStep (s : DetsRun) : DetsCall → Except AgentRtError DetsRun
  | .write write faults => .ok (s.attempt serde faults write).run
  | .compact order fault => .ok (DetsTable.compactWith serde fault order s.table s.dir).run
  | .close => s.step serde .close
  | .reopen config => s.step serde (.reopen config)

def runCalls (name : String) (config : DetsConfig) (calls : List DetsCall) :
    Except AgentRtError DetsRun := do
  let s ← start serde name config
  calls.foldlM (callStep serde) s

/-- The call leaves files that hold the map. -/
def Kept (s : DetsRun) : DetsCall → Prop
  | .write write faults => write.check s.table = .ok () →
      match s.logFault? faults, s.compactFault? faults with
      | some fault, _ => fault.LeavesNothing
      | none, some _ => write.Written s.table
      | none, none => s.table.CompactsNext ∨ write.Written s.table
  | _ => True

variable {serde}

theorem Holds.attempt (h : s.Holds serde) (hkept : s.Kept (.write write faults)) :
    (s.attempt serde faults write).run.Holds serde := by
  cases hcheck : write.check s.table with
  | error e =>
      rw [attempt_denied hcheck]
      exact h
  | ok _ =>
      have hkept' := hkept hcheck
      cases hlog : s.logFault? faults with
      | some fault =>
          rw [hlog] at hkept'
          have hzero : fault.written = 0 := hkept'.1
          rw [attempt_logFault hcheck hlog]
          obtain ⟨image, hdat, hfile, hlookup⟩ := h
          refine ⟨image, hdat, ?_, hlookup⟩
          simp only [hfile, hzero, List.take_zero, Option.map_some, List.append_nil]
      | none =>
          cases hcompact : s.compactFault? faults with
          | some fault =>
              rw [hlog, hcompact] at hkept'
              rw [attempt_compactFault hcheck hlog hcompact]
              exact (h.append hkept').stopped write.order fault
          | none =>
              rw [hlog, hcompact] at hkept'
              obtain ⟨finished, hfinished, hdone⟩ :
                  ∃ finished, _ ∧ s.attempt serde faults write = _ :=
                attempt_done hcheck hlog hcompact
              rw [hdone, hfinished]
              by_cases hdue : s.table.dirtyCount + 1 ≥ s.table.compactThreshold
              · simp only [DetsTable.finishWrite, if_pos hdue]
                exact holds_compact _ _ _
              · simp only [DetsTable.finishWrite, if_neg hdue]
                exact h.append (hkept'.resolve_left hdue)

theorem Holds.reopen (h : s.Holds serde) {s' : DetsRun} {config : DetsConfig}
    (hs' : s.step serde (.reopen config) = .ok s') : s'.Holds serde := by
  obtain ⟨table, dir, hopen, hlookup⟩ := h.durable config
  simp only [step, hopen, bind, Except.bind, Except.ok.injEq] at hs'
  subst hs'
  obtain ⟨base, found, -, -, rfl, rfl⟩ := (DetsTable.open_eq_ok serde).mp hopen
  obtain ⟨image, hdat, hlog, hsame⟩ := h
  refine ⟨image, hdat, ?_, fun k => (hsame k).trans (hlookup k).symm⟩
  simp only [hlog, Option.getD_some]

theorem Holds.callStep (h : s.Holds serde) {s' : DetsRun} {call : DetsCall}
    (hkept : s.Kept call) (hs' : s.callStep serde call = .ok s') : s'.Holds serde := by
  cases call with
  | write write faults =>
      cases hs'
      exact h.attempt hkept
  | compact order fault =>
      cases hs'
      cases fault with
      | none => exact holds_compact order s.table s.dir
      | some fault => exact h.stopped order fault
  | close =>
      cases hs'
      exact h
  | reopen config => exact h.reopen hs'

/-- After every run whose calls left files that hold the map, and for every write that may fail
at any step: an error leaves the map and the files as they were exactly if the write is
spared. -/
theorem write_atomic_iff {name : String} {config : DetsConfig} {calls : List DetsCall}
    (hkept : ∀ pre call, pre ++ [call] <+: calls → ∀ s s', runCalls serde name config pre = .ok s →
      s.callStep serde call = .ok s' → s.Kept call)
    (hs : runCalls serde name config calls = .ok s) (write : DetsWrite) (faults : DetsFaults) :
    s.Atomic serde write faults ↔ s.Spared serde write faults := by
  simp only [runCalls, start_eq] at hkept hs
  have hguarded : GuardedRun.GuardedOk (DetsRun.callStep serde) Kept
      ⟨.opened name config ∅, DetsTable.files serde name .empty⟩ calls := hkept
  have hstart : Holds serde ⟨.opened name config ∅, DetsTable.files serde name .empty⟩ :=
    ⟨.empty, rfl, rfl, fun _ => rfl⟩
  have hholds := GuardedRun.invariant_of_guardedOk (Holds serde) hstart
    (fun _ _ _ h hkept hs' => h.callStep hkept hs') hguarded hs
  exact hholds.atomic_iff write faults

/-- A put whose append fails before the first byte. -/
theorem write_atomic_unwritten :
    newTable.Atomic .compact (.put .latestFirst "k" (.bool true) 1)
      ⟨some ⟨true, 0, false⟩, none⟩ := by
  have hrun : runCalls .compact "t" ⟨.public, 1, none, 100, 100⟩ [] = .ok newTable := by
    rw [runCalls, start_eq]
    rfl
  refine (write_atomic_iff ?_ hrun _ _).mpr fun _ => .inl ⟨rfl, rfl⟩
  intro pre call hpre
  exact absurd hpre (by simp)

/-- A table that compacts itself on every write. -/
def eagerTable : DetsRun :=
  ⟨.opened "t" ⟨.public, 1, none, 100, 1⟩ ∅, DetsTable.files .compact "t" .empty⟩

theorem runCalls_eagerTable :
    runCalls .compact "t" ⟨.public, 1, none, 100, 1⟩ [] = .ok eagerTable := by
  rw [runCalls, start_eq]
  rfl

/-- Its first put cannot create the temporary snapshot, and is told so; the key is there. -/
theorem put_compaction_not_atomic :
    runCalls .compact "t" ⟨.public, 1, none, 100, 1⟩ [] = .ok eagerTable ∧
      (eagerTable.attempt .compact ⟨none, some .createTmp⟩
        (.put .latestFirst "k" (.bool true) 1)).result = .error (.ets "create dat.tmp: ") ∧
      ¬ eagerTable.Atomic .compact (.put .latestFirst "k" (.bool true) 1)
        ⟨none, some .createTmp⟩ := by
  have hholds : eagerTable.Holds .compact := ⟨.empty, rfl, rfl, fun _ => rfl⟩
  refine ⟨runCalls_eagerTable, rfl, fun hatomic => ?_⟩
  have hidle := (hholds.atomic_iff _ _).mp hatomic rfl
  have hfound : (none : Option Json) = some (.bool true) := hidle
  cases hfound

end DetsRun

end Zeptobeam
