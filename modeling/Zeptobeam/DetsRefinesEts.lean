/-
The operations a table in a registry and a table on disk have in common, called on
one of each with the same access, owner, capacity and entries.  Every file operation
succeeds; the order in which entries are listed is that of two hash maps.
-/
import Zeptobeam.Ets
import Zeptobeam.Dets
import Zeptobeam.Lib.TwoRuns

namespace Zeptobeam

open Lockstep

inductive StoreOp where
  | put (key : String) (value : Json)
  | get (key : String)
  | deleteKey (key : String)
  | count
  | scan (start : String)
  | filter (predicate : String → Json → Bool)

inductive StoreAnswer where
  | done (result : Except AgentRtError Unit)
  | value (result : Except AgentRtError (Option Json))
  | count (result : Except AgentRtError Nat)
  | entries (result : Except AgentRtError (List (String × Json)))

/-- Equal answers; the order of listed entries does not count. -/
inductive StoreAnswer.Alike : StoreAnswer → StoreAnswer → Prop
  | refl (answer : StoreAnswer) : Alike answer answer
  | entries {listed listed' : List (String × Json)} :
      listed.Perm listed' → Alike (.entries (.ok listed)) (.entries (.ok listed'))

/-- A call on a table of the registry. -/
def EtsRegistry.performOn (tid : TableId) (registry : EtsRegistry) :
    AgentPid × StoreOp → StoreAnswer × EtsRegistry
  | (caller, .put key value) => ((registry.put tid key value caller).map .done id)
  | (caller, .get key) => (.value (registry.get tid key caller), registry)
  | (caller, .deleteKey key) => ((registry.deleteKey tid key caller).map .done id)
  | (caller, .count) => (.count (registry.count tid caller), registry)
  | (caller, .scan start) => (.entries (registry.scan tid start caller), registry)
  | (caller, .filter predicate) => (.entries (registry.filter tid caller predicate), registry)

namespace DetsTable

/-- A refused write leaves the table and its files as they are. -/
def written (before : DetsTable × DetsDir) :
    Except AgentRtError (DetsTable × DetsDir) → StoreAnswer × DetsTable × DetsDir
  | .error e => (.done (.error e), before)
  | .ok after => (.done (.ok ()), after)

/-- A call on a table with its files. -/
def perform (serde : SerdeJson) (order : HashOrder) (state : DetsTable × DetsDir) :
    AgentPid × StoreOp → StoreAnswer × DetsTable × DetsDir
  | (caller, .put key value) =>
      written state (state.1.put serde order state.2 key value caller)
  | (caller, .get key) => (.value (state.1.get key caller), state)
  | (caller, .deleteKey key) => written state (state.1.deleteKey serde order state.2 key caller)
  | (caller, .count) => (.count (state.1.count caller), state)
  | (caller, .scan start) => (.entries (state.1.scan order start caller), state)
  | (caller, .filter predicate) => (.entries (state.1.filter order caller predicate), state)

/-- The table of the registry and the table on disk have the same access, owner and
capacity, and hold the same map. -/
structure SameTable (etsTable : EtsTable) (table : DetsTable) : Prop where
  access : etsTable.access = table.access
  owner : etsTable.owner = table.owner
  maxEntries : etsTable.maxEntries = table.maxEntries
  data : etsTable.data.entries.Perm table.cache.entries

def SameInRegistry (tid : TableId) (registry : EtsRegistry) (state : DetsTable × DetsDir) :
    Prop :=
  ∃ etsTable, registry.lookup tid = some etsTable ∧ SameTable etsTable state.1

variable {serde : SerdeJson} {order : HashOrder} {tid : TableId} {registry : EtsRegistry}
  {state : DetsTable × DetsDir} {table : DetsTable} {dir : DetsDir} {etsTable : EtsTable}
  {caller : AgentPid}

/-! ## The checks -/

theorem SameTable.checkWriteAccess (h : SameTable etsTable table) :
    etsTable.checkWriteAccess caller = table.checkWrite caller := by
  cases haccess : table.access <;>
    simp [EtsTable.checkWriteAccess, DetsTable.checkWrite, h.access, h.owner, haccess]

theorem SameTable.checkReadAccess (h : SameTable etsTable table) :
    etsTable.checkReadAccess caller = table.checkRead caller := by
  cases haccess : table.access <;>
    simp [EtsTable.checkReadAccess, DetsTable.checkRead, h.access, h.owner, haccess]

theorem SameTable.lookup (h : SameTable etsTable table) (key : String) :
    etsTable.data.lookup key = table.cache.lookup key :=
  AList.perm_lookup h.data

theorem SameTable.length_keys (h : SameTable etsTable table) :
    etsTable.data.keys.length = table.cache.keys.length :=
  (h.data.map Sigma.fst).length_eq

theorem SameTable.entriesWhere (h : SameTable etsTable table)
    (predicate : String → Json → Bool) :
    (etsTable.entriesWhere predicate).Perm (table.entriesWhere order predicate) := by
  have hwalk := h.data.trans (order.walk_perm table.cache).symm
  exact (hwalk.filter _).map _

/-! ## Reading -/

theorem SameTable.read {α : Type} (h : SameTable etsTable table)
    (hlookup : registry.lookup tid = some etsTable) (answer : EtsTable → α) :
    registry.read tid caller answer =
      (do table.checkRead caller; .ok (answer etsTable)) := by
  rw [EtsRegistry.read, hlookup]
  dsimp only
  rw [h.checkReadAccess]
  cases table.checkRead caller with
  | error e => rfl
  | ok done => rfl

theorem SameTable.read_alike (h : SameTable etsTable table)
    (hlookup : registry.lookup tid = some etsTable) (predicate : String → Json → Bool) :
    (StoreAnswer.entries (registry.read tid caller (·.entriesWhere predicate))).Alike
      (.entries do table.checkRead caller; .ok (table.entriesWhere order predicate)) := by
  rw [h.read hlookup]
  cases table.checkRead caller with
  | error e => exact .refl _
  | ok done => exact .entries (h.entriesWhere predicate)

/-! ## Writing -/

/-- The end of a write leaves the settings, and puts the new map in place. -/
theorem SameTable.finishWrite (h : SameTable etsTable table)
    {data : AList fun _ : String => Json} {cache : DetsCache}
    (hdata : data.entries.Perm cache.entries) :
    SameTable { etsTable with data } (table.finishWrite serde order dir cache).1 := by
  unfold DetsTable.finishWrite
  dsimp only
  split
  · exact ⟨h.access, h.owner, h.maxEntries, hdata⟩
  · exact ⟨h.access, h.owner, h.maxEntries, hdata⟩

theorem sameInRegistry_setTable (h : SameTable etsTable table) :
    SameInRegistry tid (registry.setTable tid etsTable) (table, dir) :=
  ⟨etsTable, by simp, h⟩

/-- What two writes come to when their access is granted: the same refusal, or maps
with the same entries. -/
inductive SameWrite (serde : SerdeJson) (order : HashOrder) (table : DetsTable) :
    Except AgentRtError (AList fun _ : String => Json) →
    Except AgentRtError (DetsTable × DetsDir) → Prop
  | refused (e : AgentRtError) : SameWrite serde order table (.error e) (.error e)
  | granted (dir : DetsDir) {data : AList fun _ : String => Json} {cache : DetsCache} :
      data.entries.Perm cache.entries →
      SameWrite serde order table (.ok data) (.ok (table.finishWrite serde order dir cache))

theorem SameTable.write (h : SameTable etsTable table)
    (hlookup : registry.lookup tid = some etsTable)
    {update : EtsTable → Except AgentRtError (AList fun _ : String => Json)}
    {result : Except AgentRtError (DetsTable × DetsDir)}
    (hresult : SameWrite serde order table (update etsTable) result) :
    let ets := (registry.write tid caller update).map StoreAnswer.done id
    let dets := written (table, dir) (do table.checkWrite caller; result)
    StoreAnswer.Alike ets.1 dets.1 ∧ SameInRegistry tid ets.2 dets.2 := by
  rw [EtsRegistry.write, hlookup]
  dsimp only
  rw [h.checkWriteAccess]
  cases table.checkWrite caller with
  | error e => exact ⟨.refl _, etsTable, hlookup, h⟩
  | ok done =>
      generalize update etsTable = wanted at hresult
      cases hresult with
      | refused e => exact ⟨.refl _, etsTable, hlookup, h⟩
      | granted dir hdata => exact ⟨.refl _, sameInRegistry_setTable (h.finishWrite hdata)⟩

/-- The registry's test for a full table, and the one of the table on disk. -/
theorem SameTable.full_iff (h : SameTable etsTable table) (key : String) :
    ((etsTable.data.lookup key).isNone &&
        etsTable.data.keys.length ≥ etsTable.maxEntries) = true ↔
      key ∉ table.cache ∧ table.cache.entries.length ≥ table.maxEntries := by
  have hlength : table.cache.keys.length = table.cache.entries.length := by
    simp [AList.keys, List.keys]
  rw [h.lookup, h.length_keys, h.maxEntries, hlength, ← AList.lookup_eq_none]
  simp

theorem SameTable.sameWrite_put (h : SameTable etsTable table) (key : String) (value : Json) :
    SameWrite serde order table
      (if (etsTable.data.lookup key).isNone &&
          etsTable.data.keys.length ≥ etsTable.maxEntries then
        .error (.ets "table full")
      else .ok (etsTable.data.insert key value))
      (if key ∉ table.cache ∧ table.cache.entries.length ≥ table.maxEntries then
        .error (.ets "table full")
      else
        let dir := appendLog serde table dir ⟨"put", key, some value⟩
        .ok (table.finishWrite serde order dir (table.cache.insert key value))) := by
  by_cases hfull : key ∉ table.cache ∧ table.cache.entries.length ≥ table.maxEntries
  · rw [if_pos ((h.full_iff key).mpr hfull), if_pos hfull]
    exact .refused _
  · rw [if_neg (mt (h.full_iff key).mp hfull), if_neg hfull]
    exact .granted _ (AList.perm_insert h.data)

/-! ## One operation, and runs -/

theorem perform_steps (serde : SerdeJson) (order : HashOrder) (tid : TableId) :
    Steps (EtsRegistry.performOn tid) (perform serde order) StoreAnswer.Alike
      (SameInRegistry tid) := by
  rintro registry ⟨table, dir⟩ ⟨caller, op⟩ ⟨etsTable, hlookup, h⟩
  cases op with
  | put key value => exact h.write hlookup (h.sameWrite_put key value)
  | get key =>
      have hget : registry.get tid key caller = table.get key caller := by
        rw [EtsRegistry.get, h.read hlookup, h.lookup, DetsTable.get]
      refine ⟨?_, etsTable, hlookup, h⟩
      change StoreAnswer.Alike (.value (registry.get tid key caller)) (.value (table.get key caller))
      rw [hget]
      exact .refl _
  | deleteKey key => exact h.write hlookup (.granted _ (AList.perm_erase h.data))
  | count =>
      have hcount : registry.count tid caller = table.count caller := by
        rw [EtsRegistry.count, h.read hlookup, h.length_keys, DetsTable.count]
      refine ⟨?_, etsTable, hlookup, h⟩
      change StoreAnswer.Alike (.count (registry.count tid caller)) (.count (table.count caller))
      rw [hcount]
      exact .refl _
  | scan start => exact ⟨h.read_alike hlookup _, etsTable, hlookup, h⟩
  | filter predicate => exact ⟨h.read_alike hlookup predicate, etsTable, hlookup, h⟩

/-- A table on disk answers every sequence of calls as a table in a registry with the
same settings and entries does, and has the same entries behind every call. -/
theorem dets_refines_ets (serde : SerdeJson) (order : HashOrder) (tid : TableId)
    (registry : EtsRegistry) (etsTable : EtsTable) (table : DetsTable) (dir : DetsDir)
    (hlookup : registry.lookup tid = some etsTable) (hsame : SameTable etsTable table)
    (calls : List (AgentPid × StoreOp)) :
    List.Forall₂ StoreAnswer.Alike
      (answers (EtsRegistry.performOn tid) registry calls)
      (answers (perform serde order) (table, dir) calls) ∧
    ∀ pre, pre <+: calls →
      SameInRegistry tid (final (EtsRegistry.performOn tid) registry pre)
        (final (perform serde order) (table, dir) pre) :=
  ⟨(perform_steps serde order tid).answers ⟨etsTable, hlookup, hsame⟩ calls,
    fun pre _ => (perform_steps serde order tid).final ⟨etsTable, hlookup, hsame⟩ pre⟩

/-- A protected table of two entries, fresh in both stores. -/
def freshTable : EtsTable := ⟨"t", .protected, 7, none, ∅, 2⟩

def freshConfig : DetsConfig := ⟨.protected, 7, none, 2, 1⟩

/-- Every write is compacted, a stranger's is denied, and the third key finds no room. -/
theorem dets_refines_ets_fresh :
    ((EtsRegistry.new 1 2 1).setTable (.ets 1) freshTable).lookup (.ets 1) = some freshTable ∧
    SameTable freshTable { freshConfig with name := "t", cache := ∅, dirtyCount := 0, logOpen := true } ∧
    List.Forall₂ StoreAnswer.Alike
      (answers (EtsRegistry.performOn (.ets 1)) ((EtsRegistry.new 1 2 1).setTable (.ets 1) freshTable)
        [(7, .put "a" .null), (8, .put "b" .null), (7, .put "b" .null), (7, .put "c" .null),
          (8, .scan "a"), (7, .deleteKey "a"), (8, .count)])
      (answers (perform .compact .latestFirst)
        ({ freshConfig with name := "t", cache := ∅, dirtyCount := 0, logOpen := true },
          ⟨none, none, some []⟩)
        [(7, .put "a" .null), (8, .put "b" .null), (7, .put "b" .null), (7, .put "c" .null),
          (8, .scan "a"), (7, .deleteKey "a"), (8, .count)]) :=
  ⟨AList.lookup_insert _, ⟨rfl, rfl, rfl, .refl _⟩,
    (dets_refines_ets .compact .latestFirst (.ets 1)
      ((EtsRegistry.new 1 2 1).setTable (.ets 1) freshTable) freshTable
      { freshConfig with name := "t", cache := ∅, dirtyCount := 0, logOpen := true }
      ⟨none, none, some []⟩ (AList.lookup_insert _) ⟨rfl, rfl, rfl, .refl _⟩
      [(7, .put "a" .null), (8, .put "b" .null), (7, .put "b" .null), (7, .put "c" .null),
        (8, .scan "a"), (7, .deleteKey "a"), (8, .count)]).1⟩

end DetsTable

end Zeptobeam
