/-
ETS tables: key-value tables in memory, each with an owner, an access type and perhaps an
heir.  The counter of table ids is shared by all registries of a program; here it stands in
the registry.  The order in which a table lists its entries is that of the model's map.
-/
import Zeptobeam.Types
import Mathlib.Data.List.AList

namespace Zeptobeam

inductive TableId where
  | ets (n : Nat)
  | dets (n : Nat)
deriving DecidableEq, Repr

structure EtsTable where
  name : String
  access : AccessType
  owner : AgentPid
  heir : Option AgentPid
  data : AList fun _ : String => Json
  maxEntries : Nat

namespace EtsTable

def checkWriteAccess (table : EtsTable) (caller : AgentPid) : Except AgentRtError Unit :=
  match table.access with
  | .public => .ok ()
  | .protected | .private =>
      if caller = table.owner then .ok () else .error (.ets "write access denied")

def checkReadAccess (table : EtsTable) (caller : AgentPid) : Except AgentRtError Unit :=
  match table.access with
  | .public | .protected => .ok ()
  | .private =>
      if caller = table.owner then .ok () else .error (.ets "read access denied")

def entriesWhere (table : EtsTable) (predicate : String → Json → Bool) :
    List (String × Json) :=
  (table.data.entries.filter fun entry => predicate entry.1 entry.2).map fun entry =>
    (entry.1, entry.2)

end EtsTable

structure EtsRegistry where
  tables : AList fun _ : TableId => EtsTable
  maxTables : Nat
  maxEntriesPerTable : Nat
  /-- The shared counter. -/
  nextTableId : Nat

namespace EtsRegistry

def new (maxTables maxEntriesPerTable nextTableId : Nat) : EtsRegistry :=
  ⟨∅, maxTables, maxEntriesPerTable, nextTableId⟩

def lookup (registry : EtsRegistry) (tid : TableId) : Option EtsTable :=
  registry.tables.lookup tid

def setTable (registry : EtsRegistry) (tid : TableId) (table : EtsTable) : EtsRegistry :=
  { registry with tables := registry.tables.insert tid table }

def removeTable (registry : EtsRegistry) (tid : TableId) : EtsRegistry :=
  { registry with tables := registry.tables.erase tid }

def tableNotFound : AgentRtError := .ets "table not found"

def create (registry : EtsRegistry) (name : String) (access : AccessType) (owner : AgentPid)
    (heir : Option AgentPid) : Except AgentRtError TableId × EtsRegistry :=
  if registry.tables.keys.length ≥ registry.maxTables then
    (.error (.ets "max tables exceeded"), registry)
  else
    let tid := TableId.ets registry.nextTableId
    let table : EtsTable :=
      ⟨name, access, owner, heir, ∅, registry.maxEntriesPerTable⟩
    (.ok tid, { registry with nextTableId := registry.nextTableId + 1 }.setTable tid table)

def destroy (registry : EtsRegistry) (tid : TableId) (caller : AgentPid) :
    Except AgentRtError Unit × EtsRegistry :=
  match registry.lookup tid with
  | none => (.error tableNotFound, registry)
  | some table =>
      if table.owner ≠ caller then (.error (.ets "only owner can destroy table"), registry)
      else (.ok (), registry.removeTable tid)

/-! ## Reading -/

/-- The common course of all that reads: is the table there, may the caller read it. -/
def read {α : Type} (registry : EtsRegistry) (tid : TableId) (caller : AgentPid)
    (answer : EtsTable → α) : Except AgentRtError α :=
  match registry.lookup tid with
  | none => .error tableNotFound
  | some table => (table.checkReadAccess caller).map fun _ => answer table

def get (registry : EtsRegistry) (tid : TableId) (key : String) (caller : AgentPid) :
    Except AgentRtError (Option Json) :=
  registry.read tid caller (·.data.lookup key)

def count (registry : EtsRegistry) (tid : TableId) (caller : AgentPid) :
    Except AgentRtError Nat :=
  registry.read tid caller (·.data.keys.length)

def keys (registry : EtsRegistry) (tid : TableId) (caller : AgentPid) :
    Except AgentRtError (List String) :=
  registry.read tid caller (·.data.keys)

def scan (registry : EtsRegistry) (tid : TableId) (start : String) (caller : AgentPid) :
    Except AgentRtError (List (String × Json)) :=
  registry.read tid caller
    (·.entriesWhere fun key _ => start.toList.isPrefixOf key.toList)

def filter (registry : EtsRegistry) (tid : TableId) (caller : AgentPid)
    (predicate : String → Json → Bool) : Except AgentRtError (List (String × Json)) :=
  registry.read tid caller (·.entriesWhere predicate)

/-! ## Writing -/

/-- The common course of all that writes; what is written may still be refused. -/
def write (registry : EtsRegistry) (tid : TableId) (caller : AgentPid)
    (update : EtsTable → Except AgentRtError (AList fun _ : String => Json)) :
    Except AgentRtError Unit × EtsRegistry :=
  match registry.lookup tid with
  | none => (.error tableNotFound, registry)
  | some table =>
      match table.checkWriteAccess caller with
      | .error failure => (.error failure, registry)
      | .ok () =>
          match update table with
          | .error failure => (.error failure, registry)
          | .ok data => (.ok (), registry.setTable tid { table with data })

def put (registry : EtsRegistry) (tid : TableId) (key : String) (value : Json)
    (caller : AgentPid) : Except AgentRtError Unit × EtsRegistry :=
  registry.write tid caller fun table =>
    if (table.data.lookup key).isNone && table.data.keys.length ≥ table.maxEntries then
      .error (.ets "table full")
    else .ok (table.data.insert key value)

def deleteKey (registry : EtsRegistry) (tid : TableId) (key : String) (caller : AgentPid) :
    Except AgentRtError Unit × EtsRegistry :=
  registry.write tid caller fun table => .ok (table.data.erase key)

/-! ## The end of an owner -/

/-- The tables of an owner, those with an heir or those without. -/
def ownedBy (registry : EtsRegistry) (pid : AgentPid) (withHeir : Bool) :
    List (TableId × EtsTable) :=
  (registry.tables.entries.filter fun entry =>
    entry.2.owner = pid && entry.2.heir.isSome = withHeir).map fun entry =>
      (entry.1, entry.2)

/-- A table goes over to its heir. -/
def inherit (registry : EtsRegistry) (tid : TableId) (newOwner : AgentPid) : EtsRegistry :=
  match registry.lookup tid with
  | none => registry
  | some table => registry.setTable tid { table with owner := newOwner, heir := none }

def handleProcessDeath (registry : EtsRegistry) (pid : AgentPid) : EtsRegistry :=
  let toRemove := (registry.ownedBy pid false).map Prod.fst
  let registry := toRemove.foldl removeTable registry
  let toTransfer := (registry.ownedBy pid true).filterMap fun owned =>
    owned.2.heir.map fun heir => (owned.1, heir)
  toTransfer.foldl (fun registry transfer => registry.inherit transfer.1 transfer.2) registry

end EtsRegistry

/-! ## What is in the registry after it -/

namespace EtsRegistry

@[simp]
theorem lookup_setTable (registry : EtsRegistry) (tid q : TableId) (table : EtsTable) :
    (registry.setTable tid table).lookup q =
      if q = tid then some table else registry.lookup q := by
  by_cases hq : q = tid
  · rw [if_pos hq, hq]
    exact AList.lookup_insert _
  · rw [if_neg hq]
    exact AList.lookup_insert_ne hq

@[simp]
theorem lookup_removeTable (registry : EtsRegistry) (tid q : TableId) :
    (registry.removeTable tid).lookup q =
      if q = tid then none else registry.lookup q := by
  by_cases hq : q = tid
  · rw [if_pos hq, hq]
    exact AList.lookup_erase _ _
  · rw [if_neg hq]
    exact AList.lookup_erase_ne hq

theorem lookup_removeAll (tids : List TableId) (registry : EtsRegistry) (q : TableId) :
    (tids.foldl removeTable registry).lookup q =
      if q ∈ tids then none else registry.lookup q := by
  induction tids generalizing registry with
  | nil => simp
  | cons tid rest ih =>
      rw [List.foldl_cons, ih, lookup_removeTable]
      by_cases hrest : q ∈ rest
      · simp [hrest]
      · simp [hrest]

theorem mem_ownedBy {registry : EtsRegistry} {pid : AgentPid} {withHeir : Bool}
    {tid : TableId} {table : EtsTable} :
    (tid, table) ∈ registry.ownedBy pid withHeir ↔
      registry.lookup tid = some table ∧ table.owner = pid ∧
        table.heir.isSome = withHeir := by
  have hlookup : registry.lookup tid = some table ↔
      (⟨tid, table⟩ : Sigma fun _ : TableId => EtsTable) ∈ registry.tables.entries :=
    AList.mem_lookup_iff
  rw [hlookup]
  constructor
  · intro h
    obtain ⟨entry, hentry, heq⟩ := List.mem_map.mp h
    obtain ⟨rfl, rfl⟩ := Prod.mk.inj heq
    simpa using hentry
  · intro h
    refine List.mem_map.mpr ⟨⟨tid, table⟩, ?_, rfl⟩
    simpa using h

@[simp]
theorem lookup_inherit (registry : EtsRegistry) (tid q : TableId) (newOwner : AgentPid) :
    (registry.inherit tid newOwner).lookup q =
      if q = tid then
        (registry.lookup q).map ({ · with owner := newOwner, heir := none })
      else registry.lookup q := by
  unfold inherit
  by_cases hq : q = tid
  · subst hq
    cases hlookup : registry.lookup q with
    | none => simp [hlookup]
    | some table => simp
  · cases hlookup : registry.lookup tid with
    | none => simp [hq]
    | some table => simp [hq]

/-- A table that goes over to the same heir each time. -/
theorem lookup_inheritAll (transfers : List (TableId × AgentPid)) (registry : EtsRegistry)
    {q : TableId} {newOwner : AgentPid}
    (hsame : ∀ transfer ∈ transfers, transfer.1 = q → transfer.2 = newOwner) :
    (transfers.foldl (fun registry transfer => registry.inherit transfer.1 transfer.2)
        registry).lookup q =
      if q ∈ transfers.map Prod.fst then
        (registry.lookup q).map ({ · with owner := newOwner, heir := none })
      else registry.lookup q := by
  induction transfers generalizing registry with
  | nil => simp
  | cons transfer rest ih =>
      have hrest := ih (registry.inherit transfer.1 transfer.2) fun other hother =>
        hsame other (List.mem_cons_of_mem transfer hother)
      rw [List.foldl_cons, hrest, lookup_inherit, List.map_cons]
      by_cases hq : q = transfer.1
      · have hheir := hsame transfer List.mem_cons_self hq.symm
        by_cases hmem : q ∈ rest.map Prod.fst
        · rw [if_pos hmem, if_pos hq, if_pos (List.mem_cons_of_mem _ hmem), Option.map_map]
          rfl
        · rw [if_neg hmem, if_pos hq, if_pos (hq ▸ List.mem_cons_self), hheir]
      · by_cases hmem : q ∈ rest.map Prod.fst
        · rw [if_pos hmem, if_neg hq, if_pos (List.mem_cons_of_mem _ hmem)]
        · rw [if_neg hmem, if_neg hq, if_neg (List.not_mem_cons_of_ne_of_not_mem hq hmem)]

theorem lookup_removeOwned (registry : EtsRegistry) (pid : AgentPid) (q : TableId) :
    (((registry.ownedBy pid false).map Prod.fst).foldl removeTable registry).lookup q =
      (registry.lookup q).bind fun table =>
        if table.owner = pid ∧ table.heir = none then none else some table := by
  have hremoved : q ∈ (registry.ownedBy pid false).map Prod.fst ↔
      ∃ table, registry.lookup q = some table ∧ table.owner = pid ∧ table.heir = none := by
    constructor
    · intro h
      obtain ⟨⟨_, table⟩, hmem, rfl⟩ := List.mem_map.mp h
      obtain ⟨hlookup, howner, hheir⟩ := mem_ownedBy.mp hmem
      exact ⟨table, hlookup, howner, by simpa using hheir⟩
    · rintro ⟨table, hlookup, howner, hheir⟩
      have hmem : (q, table) ∈ registry.ownedBy pid false :=
        mem_ownedBy.mpr ⟨hlookup, howner, by simp [hheir]⟩
      exact List.mem_map.mpr ⟨_, hmem, rfl⟩
  rw [lookup_removeAll]
  cases hlookup : registry.lookup q with
  | none => simp
  | some table => simp [hremoved, hlookup]

theorem lookup_inheritOwned (registry : EtsRegistry) (pid : AgentPid) (q : TableId) :
    (((registry.ownedBy pid true).filterMap fun owned =>
        owned.2.heir.map fun heir => (owned.1, heir)).foldl
        (fun registry transfer => registry.inherit transfer.1 transfer.2) registry).lookup q =
      (registry.lookup q).map fun table =>
        if table.owner = pid then
          table.heir.elim table fun heir => { table with owner := heir, heir := none }
        else table := by
  have htransfer : ∀ tid heir, (tid, heir) ∈ ((registry.ownedBy pid true).filterMap
      fun owned => owned.2.heir.map fun heir => (owned.1, heir)) ↔
      ∃ table, registry.lookup tid = some table ∧ table.owner = pid ∧
        table.heir = some heir := by
    intro tid heir
    rw [List.mem_filterMap]
    constructor
    · rintro ⟨⟨_, table⟩, hmem, hheir⟩
      obtain ⟨hlookup, howner, _⟩ := mem_ownedBy.mp hmem
      obtain ⟨_, hfound, heq⟩ := Option.map_eq_some_iff.mp hheir
      obtain ⟨rfl, rfl⟩ := Prod.mk.inj heq
      exact ⟨table, hlookup, howner, hfound⟩
    · rintro ⟨table, hlookup, howner, hheir⟩
      have hmem : (tid, table) ∈ registry.ownedBy pid true :=
        mem_ownedBy.mpr ⟨hlookup, howner, by simp [hheir]⟩
      exact ⟨(tid, table), hmem, by simp [hheir]⟩
  generalize (registry.ownedBy pid true).filterMap _ = transfers at htransfer
  by_cases hmoves : ∃ heir, (q, heir) ∈ transfers
  · obtain ⟨heir, hmem⟩ := hmoves
    obtain ⟨table, hlookup, howner, hheir⟩ := (htransfer q heir).mp hmem
    have hsame : ∀ transfer ∈ transfers, transfer.1 = q → transfer.2 = heir := by
      rintro ⟨tid, other⟩ hother rfl
      obtain ⟨found, hfound, _, hheir'⟩ := (htransfer tid other).mp hother
      cases hlookup.symm.trans hfound
      exact Option.some.inj (hheir'.symm.trans hheir)
    have hin : q ∈ transfers.map Prod.fst := List.mem_map.mpr ⟨_, hmem, rfl⟩
    rw [lookup_inheritAll transfers registry hsame, if_pos hin, hlookup]
    simp [howner, hheir]
  · have hout : q ∉ transfers.map Prod.fst := by
      intro hin
      obtain ⟨⟨_, heir⟩, hmem, rfl⟩ := List.mem_map.mp hin
      exact hmoves ⟨heir, hmem⟩
    have hsame : ∀ transfer ∈ transfers, transfer.1 = q → transfer.2 = pid := by
      rintro ⟨tid, heir⟩ hmem rfl
      exact absurd ⟨heir, hmem⟩ hmoves
    rw [lookup_inheritAll transfers registry hsame, if_neg hout]
    cases hlookup : registry.lookup q with
    | none => rfl
    | some table =>
        by_cases howner : table.owner = pid
        · cases hheir : table.heir with
          | none => simp [hheir]
          | some heir =>
              exact absurd ⟨heir, (htransfer q heir).mpr ⟨table, hlookup, howner, hheir⟩⟩ hmoves
        · simp [howner]

/-- A table of the process is gone, or its heir has it. -/
theorem lookup_handleProcessDeath (registry : EtsRegistry) (pid : AgentPid) (q : TableId) :
    (registry.handleProcessDeath pid).lookup q = (registry.lookup q).bind fun table =>
      if table.owner = pid then
        table.heir.map fun heir => { table with owner := heir, heir := none }
      else some table := by
  unfold handleProcessDeath
  rw [lookup_inheritOwned, lookup_removeOwned]
  cases registry.lookup q with
  | none => rfl
  | some table =>
      by_cases howner : table.owner = pid
      · cases hheir : table.heir with
        | none => simp [howner, hheir]
        | some heir => simp [howner, hheir]
      · simp [howner]

theorem write_cases (registry : EtsRegistry) (tid : TableId) (caller : AgentPid)
    (update : EtsTable → Except AgentRtError (AList fun _ : String => Json)) :
    ((registry.write tid caller update).2 = registry) ∨
      ∃ table data, registry.lookup tid = some table ∧
        table.checkWriteAccess caller = .ok () ∧
        (registry.write tid caller update).2 = registry.setTable tid { table with data } := by
  unfold write
  cases hlookup : registry.lookup tid with
  | none => exact .inl rfl
  | some table =>
      dsimp only
      cases hcheck : table.checkWriteAccess caller with
      | error failure => exact .inl rfl
      | ok _ =>
          cases update table with
          | error failure => exact .inl rfl
          | ok data => exact .inr ⟨table, data, rfl, hcheck, rfl⟩

theorem handleProcessDeath_limits (registry : EtsRegistry) (pid : AgentPid) :
    (registry.handleProcessDeath pid).maxTables = registry.maxTables ∧
      (registry.handleProcessDeath pid).maxEntriesPerTable = registry.maxEntriesPerTable ∧
      (registry.handleProcessDeath pid).nextTableId = registry.nextTableId := by
  have hremove : ∀ (tids : List TableId) (registry : EtsRegistry),
      (tids.foldl removeTable registry).maxTables = registry.maxTables ∧
        (tids.foldl removeTable registry).maxEntriesPerTable = registry.maxEntriesPerTable ∧
        (tids.foldl removeTable registry).nextTableId = registry.nextTableId := by
    intro tids
    induction tids with
    | nil => exact fun _ => ⟨rfl, rfl, rfl⟩
    | cons tid rest ih => exact fun registry => ih (registry.removeTable tid)
  have hinherit : ∀ (transfers : List (TableId × AgentPid)) (registry : EtsRegistry),
      let after := transfers.foldl
        (fun registry transfer => registry.inherit transfer.1 transfer.2) registry
      after.maxTables = registry.maxTables ∧
        after.maxEntriesPerTable = registry.maxEntriesPerTable ∧
        after.nextTableId = registry.nextTableId := by
    intro transfers
    induction transfers with
    | nil => exact fun _ => ⟨rfl, rfl, rfl⟩
    | cons transfer rest ih =>
        intro registry
        have hfirst : (registry.inherit transfer.1 transfer.2).maxTables = registry.maxTables ∧
            (registry.inherit transfer.1 transfer.2).maxEntriesPerTable =
              registry.maxEntriesPerTable ∧
            (registry.inherit transfer.1 transfer.2).nextTableId = registry.nextTableId := by
          unfold inherit
          split
          · exact ⟨rfl, rfl, rfl⟩
          · exact ⟨rfl, rfl, rfl⟩
        obtain ⟨htables, hentries, hids⟩ := ih (registry.inherit transfer.1 transfer.2)
        exact ⟨htables.trans hfirst.1, hentries.trans hfirst.2.1, hids.trans hfirst.2.2⟩
  obtain ⟨htables, hentries, hids⟩ := hinherit _ _
  obtain ⟨htables', hentries', hids'⟩ := hremove _ registry
  exact ⟨htables.trans htables', hentries.trans hentries', hids.trans hids'⟩

end EtsRegistry

/-! ## Operations -/

/-- What is done with a registry; other registries draw from the counter too. -/
inductive EtsOp where
  | create (name : String) (access : AccessType) (owner : AgentPid) (heir : Option AgentPid)
  | destroy (tid : TableId) (caller : AgentPid)
  | get (tid : TableId) (key : String) (caller : AgentPid)
  | put (tid : TableId) (key : String) (value : Json) (caller : AgentPid)
  | deleteKey (tid : TableId) (key : String) (caller : AgentPid)
  | count (tid : TableId) (caller : AgentPid)
  | keys (tid : TableId) (caller : AgentPid)
  | scan (tid : TableId) (start : String) (caller : AgentPid)
  | filter (tid : TableId) (caller : AgentPid) (predicate : String → Json → Bool)
  | handleProcessDeath (pid : AgentPid)
  | tableIdsDrawn (ids : Nat)

inductive EtsReply where
  | created (answer : Except AgentRtError TableId)
  | done (answer : Except AgentRtError Unit)
  | value (answer : Except AgentRtError (Option Json))
  | size (answer : Except AgentRtError Nat)
  | keys (answer : Except AgentRtError (List String))
  | entries (answer : Except AgentRtError (List (String × Json)))
  | nothing

namespace EtsRegistry

def perform (registry : EtsRegistry) : EtsOp → EtsReply × EtsRegistry
  | .create name access owner heir =>
      let (answer, registry) := registry.create name access owner heir
      (.created answer, registry)
  | .destroy tid caller =>
      let (answer, registry) := registry.destroy tid caller
      (.done answer, registry)
  | .get tid key caller => (.value (registry.get tid key caller), registry)
  | .put tid key value caller =>
      let (answer, registry) := registry.put tid key value caller
      (.done answer, registry)
  | .deleteKey tid key caller =>
      let (answer, registry) := registry.deleteKey tid key caller
      (.done answer, registry)
  | .count tid caller => (.size (registry.count tid caller), registry)
  | .keys tid caller => (.keys (registry.keys tid caller), registry)
  | .scan tid start caller => (.entries (registry.scan tid start caller), registry)
  | .filter tid caller predicate => (.entries (registry.filter tid caller predicate), registry)
  | .handleProcessDeath pid => (.nothing, registry.handleProcessDeath pid)
  | .tableIdsDrawn ids => (.nothing, { registry with nextTableId := registry.nextTableId + ids })

def step (registry : EtsRegistry) (op : EtsOp) : EtsRegistry :=
  (registry.perform op).2

def run (registry : EtsRegistry) (ops : List EtsOp) : EtsRegistry :=
  ops.foldl step registry

end EtsRegistry

end Zeptobeam
