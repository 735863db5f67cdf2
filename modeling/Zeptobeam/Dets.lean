/-
Disk-backed tables: a cache in memory, a log file of puts and deletes, and a
snapshot file that compaction rewrites.  The operations work on the bytes of the
files; every system call succeeds.  Dropping a table loses nothing of its files,
since each log line is flushed.
-/
import Zeptobeam.Types
import Zeptobeam.Lib.ReplayLog

namespace Zeptobeam

open LineFile

structure DetsHeader where
  schemaVersion : Nat
  fileType : String
  table : String

structure DetsEntry where
  key : String
  value : Json

structure DetsLogEntry where
  op : String
  key : String
  value : Option Json
deriving DecidableEq

namespace DetsHeader

def toJson (header : DetsHeader) : Json :=
  .obj [("schema_version", .ofNat header.schemaVersion),
    ("type", .str header.fileType), ("table", .str header.table)]

def fromJson : Json → Option DetsHeader
  | .obj fields => do
      let schemaVersion ← (← Json.field? fields "schema_version").toNat?
      let fileType ← (← Json.field? fields "type").toString?
      let table ← (← Json.field? fields "table").toString?
      some ⟨schemaVersion, fileType, table⟩
  | _ => none

@[simp]
theorem fromJson_toJson (header : DetsHeader) : fromJson header.toJson = some header := by
  simp [toJson, fromJson, Json.field?, Json.toString?]

end DetsHeader

namespace DetsEntry

def toJson (entry : DetsEntry) : Json :=
  .obj [("key", .str entry.key), ("value", entry.value)]

def fromJson : Json → Option DetsEntry
  | .obj fields => do
      let key ← (← Json.field? fields "key").toString?
      let value ← Json.field? fields "value"
      some ⟨key, value⟩
  | _ => none

@[simp]
theorem fromJson_toJson (entry : DetsEntry) : fromJson entry.toJson = some entry := by
  simp [toJson, fromJson, Json.field?, Json.toString?]

end DetsEntry

namespace DetsLogEntry

/-- `value` is skipped when it is `None`. -/
def toJson (entry : DetsLogEntry) : Json :=
  .obj ([("op", .str entry.op), ("key", .str entry.key)] ++
    entry.value.toList.map fun value => ("value", value))

def fromJson : Json → Option DetsLogEntry
  | .obj fields => do
      let op ← (← Json.field? fields "op").toString?
      let key ← (← Json.field? fields "key").toString?
      let value ← Json.optionField? fields "value"
      some ⟨op, key, value⟩
  | _ => none

/-- The entry as it is read back: a `null` value is gone. -/
def reread (entry : DetsLogEntry) : DetsLogEntry :=
  { entry with value := entry.value.filter fun value => value ≠ .null }

theorem fromJson_toJson (entry : DetsLogEntry) :
    fromJson entry.toJson = some entry.reread := by
  obtain ⟨op, key, value⟩ := entry
  cases value with
  | none => simp [toJson, fromJson, reread, Json.field?, Json.optionField?, Json.toString?]
  | some value =>
      cases value <;>
        simp [toJson, fromJson, reread, Json.field?, Json.optionField?, Json.toString?,
          Option.filter_some]

/-- What replaying the entry does to the cache, if anything. -/
def record? (entry : DetsLogEntry) : Option (ReplayLog.Record String Json) :=
  if entry.op = "put" then entry.value.map (.put entry.key)
  else if entry.op = "delete" then some (.delete entry.key)
  else none

end DetsLogEntry

abbrev DetsCache := AList fun _ : String => Json

/-- The order in which a hash map yields its entries. -/
structure HashOrder where
  walk : DetsCache → List (Sigma fun _ : String => Json)
  walk_perm : ∀ cache, (walk cache).Perm cache.entries

/-- One such order: the last key put comes first. -/
def HashOrder.latestFirst : HashOrder := ⟨AList.entries, fun _ => .refl _⟩

/-- The files of one table in its directory. -/
structure DetsDir where
  dat : Option Bytes
  datTmp : Option Bytes
  log : Option Bytes

def DetsDir.empty : DetsDir := ⟨none, none, none⟩

/-- The settings a table is opened with. -/
structure DetsConfig where
  access : AccessType
  owner : AgentPid
  heir : Option AgentPid
  maxEntries : Nat
  compactThreshold : Nat

structure DetsTable extends DetsConfig where
  name : String
  cache : DetsCache
  dirtyCount : Nat
  /-- `log_writer` is there: the table was not closed. -/
  logOpen : Bool

namespace DetsTable

variable (serde : SerdeJson)

def schemaVersion : Nat := 1

def line (value : Json) : Bytes := encode (serde.toString value) ++ [newline]

/-! ## Opening -/

def loadDat : Bool → DetsCache → List (Option (List Char)) →
    Except AgentRtError DetsCache
  | _, cache, [] => .ok cache
  | _, _, none :: _ => .error (.ets "read dat: ")
  | first, cache, some text :: rest =>
      if isBlank text then loadDat first cache rest
      else if first then
        match (serde.fromStr text).bind DetsHeader.fromJson with
        | none => .error (.ets "bad dat header: ")
        | some header =>
            if header.schemaVersion > schemaVersion then
              .error (.ets s!"schema version {header.schemaVersion} not supported, max supported: {schemaVersion}")
            else loadDat false cache rest
      else
        match (serde.fromStr text).bind DetsEntry.fromJson with
        | none => .error (.ets "bad dat entry: ")
        | some entry => loadDat false (cache.insert entry.key entry.value) rest

def applyLogEntry (cache : DetsCache) (entry : DetsLogEntry) : DetsCache :=
  entry.record?.elim cache (ReplayLog.applyTo cache)

def replayLog : DetsCache → List (Option (List Char)) → Except AgentRtError DetsCache
  | cache, [] => .ok cache
  | _, none :: _ => .error (.ets "read log: ")
  | cache, some text :: rest =>
      if isBlank text then replayLog cache rest
      else
        match (serde.fromStr text).bind DetsLogEntry.fromJson with
        | none => .error (.ets "bad log entry: ")
        | some entry => replayLog (applyLogEntry cache entry) rest

def readDat : Option Bytes → Except AgentRtError DetsCache
  | none => .ok ∅
  | some file => loadDat serde true ∅ (readLines file)

def readLog (cache : DetsCache) : Option Bytes → Except AgentRtError DetsCache
  | none => .ok cache
  | some file => replayLog serde cache (readLines file)

def «open» (name : String) (config : DetsConfig) (dir : DetsDir) :
    Except AgentRtError (DetsTable × DetsDir) := do
  let cache ← readDat serde dir.dat
  let cache ← readLog serde cache dir.log
  let table : DetsTable := { config with name, cache, dirtyCount := 0, logOpen := true }
  .ok (table, { dir with log := some (dir.log.getD []) })

/-! ## Access -/

def checkWrite (table : DetsTable) (caller : AgentPid) : Except AgentRtError Unit :=
  match table.access with
  | .public => .ok ()
  | .protected | .private =>
      if caller = table.owner then .ok () else .error (.ets "write access denied")

def checkRead (table : DetsTable) (caller : AgentPid) : Except AgentRtError Unit :=
  match table.access with
  | .public | .protected => .ok ()
  | .private =>
      if caller = table.owner then .ok () else .error (.ets "read access denied")

def get (table : DetsTable) (key : String) (caller : AgentPid) :
    Except AgentRtError (Option Json) := do
  table.checkRead caller
  .ok (table.cache.lookup key)

def entriesWhere (order : HashOrder) (table : DetsTable)
    (predicate : String → Json → Bool) : List (String × Json) :=
  ((order.walk table.cache).filter fun entry => predicate entry.1 entry.2).map fun entry =>
    (entry.1, entry.2)

def scan (order : HashOrder) (table : DetsTable) (start : String) (caller : AgentPid) :
    Except AgentRtError (List (String × Json)) := do
  table.checkRead caller
  .ok (table.entriesWhere order fun key _ => start.toList.isPrefixOf key.toList)

def filter (order : HashOrder) (table : DetsTable) (caller : AgentPid)
    (predicate : String → Json → Bool) : Except AgentRtError (List (String × Json)) := do
  table.checkRead caller
  .ok (table.entriesWhere order predicate)

def count (table : DetsTable) (caller : AgentPid) : Except AgentRtError Nat := do
  table.checkRead caller
  .ok table.cache.keys.length

/-! ## Compaction, one file operation at a time -/

def snapshotBytes (order : HashOrder) (table : DetsTable) : Bytes :=
  line serde (DetsHeader.toJson ⟨schemaVersion, "dets", table.name⟩) ++
    (order.walk table.cache).flatMap fun entry =>
      line serde (DetsEntry.toJson ⟨entry.1, entry.2⟩)

def writeSnapshot (order : HashOrder) (table : DetsTable) (dir : DetsDir) : DetsDir :=
  { dir with datTmp := some (snapshotBytes serde order table) }

def renameSnapshot (dir : DetsDir) : DetsDir :=
  { dir with dat := dir.datTmp, datTmp := none }

def truncateLog (dir : DetsDir) : DetsDir :=
  { dir with log := some [] }

def compact (order : HashOrder) (table : DetsTable) (dir : DetsDir) :
    DetsTable × DetsDir :=
  let dir := writeSnapshot serde order table dir
  let dir := renameSnapshot dir
  let dir := truncateLog dir
  ({ table with logOpen := true, dirtyCount := 0 }, dir)

/-! ## Writing -/

def appendLog (table : DetsTable) (dir : DetsDir) (entry : DetsLogEntry) : DetsDir :=
  if table.logOpen then { dir with log := dir.log.map (· ++ line serde entry.toJson) }
  else dir

/-- The end of every write: the cache is changed, and compacted when due. -/
def finishWrite (order : HashOrder) (table : DetsTable) (dir : DetsDir)
    (cache : DetsCache) : DetsTable × DetsDir :=
  let table := { table with cache, dirtyCount := table.dirtyCount + 1 }
  if table.dirtyCount ≥ table.compactThreshold then compact serde order table dir
  else (table, dir)

def put (order : HashOrder) (table : DetsTable) (dir : DetsDir) (key : String)
    (value : Json) (caller : AgentPid) : Except AgentRtError (DetsTable × DetsDir) := do
  table.checkWrite caller
  if key ∉ table.cache ∧ table.cache.entries.length ≥ table.maxEntries then
    .error (.ets "table full")
  else
    let dir := appendLog serde table dir ⟨"put", key, some value⟩
    .ok (finishWrite serde order table dir (table.cache.insert key value))

def deleteKey (order : HashOrder) (table : DetsTable) (dir : DetsDir) (key : String)
    (caller : AgentPid) : Except AgentRtError (DetsTable × DetsDir) := do
  table.checkWrite caller
  let dir := appendLog serde table dir ⟨"delete", key, none⟩
  .ok (finishWrite serde order table dir (table.cache.erase key))

def close (table : DetsTable) : DetsTable := { table with logOpen := false }

end DetsTable

end Zeptobeam
