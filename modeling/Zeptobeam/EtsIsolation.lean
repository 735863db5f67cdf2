/-
Who sees and who changes the contents of a table.  What stands in a Private table decides
nothing but the answers to its owner, and only its owner changes it, or a Protected one.
-/
import Zeptobeam.Ets
import Zeptobeam.Lib.Unwinding

namespace Zeptobeam

/-- The table, and the caller, of an operation on the contents of a table. -/
def EtsOp.contents : EtsOp → Option (TableId × AgentPid)
  | .get tid _ caller | .put tid _ _ caller | .deleteKey tid _ caller | .count tid caller
  | .keys tid caller | .scan tid _ caller | .filter tid caller _ => some (tid, caller)
  | _ => none

/-- The owner changes the table, or destroys it, or ends. -/
def EtsOp.byOwner (tid : TableId) (owner : AgentPid) : EtsOp → Prop
  | .put other _ _ caller | .deleteKey other _ caller | .destroy other caller =>
      other = tid ∧ caller = owner
  | .handleProcessDeath pid => pid = owner
  | _ => False

/-- A Private table of somebody else. -/
structure EtsTable.Denies (table : EtsTable) (caller : AgentPid) : Prop where
  access : table.access = .private
  other : caller ≠ table.owner

theorem EtsTable.Denies.read {table : EtsTable} {caller : AgentPid}
    (h : table.Denies caller) :
    table.checkReadAccess caller = .error (.ets "read access denied") := by
  simp [checkReadAccess, h.access, h.other]

theorem EtsTable.Denies.write {table : EtsTable} {caller : AgentPid}
    (h : table.Denies caller) :
    table.checkWriteAccess caller = .error (.ets "write access denied") := by
  simp [checkWriteAccess, h.access, h.other]

namespace EtsRegistry

open Unwinding

/-- Without the contents of the concealed tables, as far as they are Private. -/
def veil (concealed : TableId → Bool) (tid : TableId) (table : EtsTable) : EtsTable :=
  if concealed tid && table.access = .private then { table with data := ∅ } else table

/-- The registries differ only in what stands in concealed tables that are Private. -/
structure SameExcept (concealed : TableId → Bool) (r r' : EtsRegistry) : Prop where
  maxTables : r.maxTables = r'.maxTables
  maxEntriesPerTable : r.maxEntriesPerTable = r'.maxEntriesPerTable
  nextTableId : r.nextTableId = r'.nextTableId
  tables : ∀ tid, (r.lookup tid).map (veil concealed tid) =
    (r'.lookup tid).map (veil concealed tid)

/-- The owner of a concealed Private table works on its contents. -/
def hidden (concealed : TableId → Bool) (registry : EtsRegistry) (op : EtsOp) : Bool :=
  op.contents.any fun (tid, caller) => concealed tid && (registry.lookup tid).any fun table =>
    table.access = .private && table.owner = caller

/-- The answer to an operation. -/
def reply (registry : EtsRegistry) (op : EtsOp) : EtsReply :=
  (registry.perform op).1

variable {concealed : TableId → Bool} {r r' : EtsRegistry}

/-! ## Under the veil -/

theorem veil_of_seen {tid : TableId} {table : EtsTable}
    (h : concealed tid = false ∨ table.access ≠ .private) :
    veil concealed tid table = table := by
  unfold veil
  rcases h with h | h
  · simp [h]
  · simp [h]

theorem veil_of_concealed {tid : TableId} {table : EtsTable} (h : concealed tid = true)
    (haccess : table.access = .private) :
    veil concealed tid table = { table with data := ∅ } := by
  simp [veil, h, haccess]

/-- The veil does not depend on the owner or the heir. -/
theorem veil_inherit (tid : TableId) (table : EtsTable) (owner : AgentPid)
    (heir : Option AgentPid) :
    veil concealed tid { table with owner, heir } =
      { veil concealed tid table with owner, heir } := by
  unfold veil
  split
  · rfl
  · rfl

@[simp]
theorem owner_veil (tid : TableId) (table : EtsTable) :
    (veil concealed tid table).owner = table.owner := by
  unfold veil
  split
  · rfl
  · rfl

@[simp]
theorem heir_veil (tid : TableId) (table : EtsTable) :
    (veil concealed tid table).heir = table.heir := by
  unfold veil
  split
  · rfl
  · rfl

@[simp]
theorem access_veil (tid : TableId) (table : EtsTable) :
    (veil concealed tid table).access = table.access := by
  unfold veil
  split
  · rfl
  · rfl

theorem equivalence_sameExcept (concealed : TableId → Bool) :
    Equivalence (SameExcept concealed) where
  refl _ := ⟨rfl, rfl, rfl, fun _ => rfl⟩
  symm h := ⟨h.maxTables.symm, h.maxEntriesPerTable.symm, h.nextTableId.symm,
    fun tid => (h.tables tid).symm⟩
  trans h h' := ⟨h.maxTables.trans h'.maxTables,
    h.maxEntriesPerTable.trans h'.maxEntriesPerTable, h.nextTableId.trans h'.nextTableId,
    fun tid => (h.tables tid).trans (h'.tables tid)⟩

namespace SameExcept

/-- Both have the table, or none has. -/
theorem lookup (h : SameExcept concealed r r') (tid : TableId) :
    (r.lookup tid = none ∧ r'.lookup tid = none) ∨
      ∃ table table', r.lookup tid = some table ∧ r'.lookup tid = some table' ∧
        veil concealed tid table = veil concealed tid table' := by
  have htables := h.tables tid
  cases hlookup : r.lookup tid with
  | none =>
      rw [hlookup, Option.map_none] at htables
      exact .inl ⟨rfl, Option.map_eq_none_iff.mp htables.symm⟩
  | some table =>
      rw [hlookup, Option.map_some] at htables
      obtain ⟨table', hlookup', hveil⟩ := Option.map_eq_some_iff.mp htables.symm
      exact .inr ⟨table, table', rfl, hlookup', hveil.symm⟩

theorem length_keys (h : SameExcept concealed r r') :
    r.tables.keys.length = r'.tables.keys.length := by
  have hmem : ∀ {r : EtsRegistry} {tid : TableId},
      tid ∈ r.tables.keys ↔ (r.lookup tid).isSome := by
    intro r tid
    exact AList.mem_keys.symm.trans AList.lookup_isSome.symm
  apply List.Perm.length_eq
  rw [List.perm_ext_iff_of_nodup r.tables.keys_nodup r'.tables.keys_nodup]
  intro tid
  rw [hmem, hmem]
  rcases h.lookup tid with ⟨hnone, hnone'⟩ | ⟨table, table', hlookup, hlookup', _⟩
  · simp [hnone, hnone']
  · simp [hlookup, hlookup']

theorem setTable (h : SameExcept concealed r r') {tid : TableId} {table table' : EtsTable}
    (hveil : veil concealed tid table = veil concealed tid table') :
    SameExcept concealed (r.setTable tid table) (r'.setTable tid table') := by
  refine ⟨h.maxTables, h.maxEntriesPerTable, h.nextTableId, fun q => ?_⟩
  rw [lookup_setTable, lookup_setTable]
  by_cases hq : q = tid
  · simp [hq, hveil]
  · simpa only [if_neg hq] using h.tables q

theorem removeTable (h : SameExcept concealed r r') (tid : TableId) :
    SameExcept concealed (r.removeTable tid) (r'.removeTable tid) := by
  refine ⟨h.maxTables, h.maxEntriesPerTable, h.nextTableId, fun q => ?_⟩
  rw [lookup_removeTable, lookup_removeTable]
  by_cases hq : q = tid
  · simp [hq]
  · simpa only [if_neg hq] using h.tables q

theorem handleProcessDeath (h : SameExcept concealed r r') (pid : AgentPid) :
    SameExcept concealed (r.handleProcessDeath pid) (r'.handleProcessDeath pid) := by
  obtain ⟨htables, hentries, hids⟩ := r.handleProcessDeath_limits pid
  obtain ⟨htables', hentries', hids'⟩ := r'.handleProcessDeath_limits pid
  refine ⟨?_, ?_, ?_, fun q => ?_⟩
  · rw [htables, htables', h.maxTables]
  · rw [hentries, hentries', h.maxEntriesPerTable]
  · rw [hids, hids', h.nextTableId]
  · have hcommutes : ∀ r : EtsRegistry,
        ((r.handleProcessDeath pid).lookup q).map (veil concealed q) =
          ((r.lookup q).map (veil concealed q)).bind fun table =>
            if table.owner = pid then
              table.heir.map fun heir => { table with owner := heir, heir := none }
            else some table := by
      intro r
      rw [lookup_handleProcessDeath]
      cases r.lookup q with
      | none => rfl
      | some table =>
          by_cases howner : table.owner = pid
          · cases hheir : table.heir with
            | none => simp [howner, hheir]
            | some heir => simp [howner, hheir, veil_inherit]
          · simp [howner]
    rw [hcommutes, hcommutes, h.tables q]

/-- Who is not the owner of a concealed Private table finds no table, is denied both times,
or finds the same. -/
theorem cases_of_seen (h : SameExcept concealed r r') {tid : TableId} {caller : AgentPid}
    (hseen : (concealed tid && (r.lookup tid).any fun table =>
      table.access = .private && table.owner = caller) = false) :
    (r.lookup tid = none ∧ r'.lookup tid = none) ∨
      (∃ table table', r.lookup tid = some table ∧ r'.lookup tid = some table' ∧
        table.Denies caller ∧ table'.Denies caller) ∨
      ∃ table, r.lookup tid = some table ∧ r'.lookup tid = some table := by
  rcases h.lookup tid with hnone | ⟨table, table', hlookup, hlookup', hveil⟩
  · exact .inl hnone
  · right
    have howner : table'.owner = table.owner := by
      simpa using (congrArg EtsTable.owner hveil).symm
    have haccess : table'.access = table.access := by
      simpa using (congrArg EtsTable.access hveil).symm
    by_cases hconcealed : concealed tid = true ∧ table.access = .private
    · obtain ⟨htid, hprivate⟩ := hconcealed
      have hother : caller ≠ table.owner := by
        simpa [htid, hlookup, hprivate, eq_comm] using hseen
      exact .inl ⟨table, table', hlookup, hlookup', ⟨hprivate, hother⟩,
        ⟨haccess.trans hprivate, howner ▸ hother⟩⟩
    · have hshown : concealed tid = false ∨ table.access ≠ .private := by
        by_cases htid : concealed tid = true
        · exact .inr fun hprivate => hconcealed ⟨htid, hprivate⟩
        · exact .inl (by simpa using htid)
      rw [veil_of_seen hshown, veil_of_seen (haccess.symm ▸ hshown)] at hveil
      exact .inr ⟨table, hlookup, hveil.symm ▸ hlookup'⟩

theorem read (h : SameExcept concealed r r') {α : Type} {tid : TableId} {caller : AgentPid}
    (hseen : (concealed tid && (r.lookup tid).any fun table =>
      table.access = .private && table.owner = caller) = false)
    (answer : EtsTable → α) : r.read tid caller answer = r'.read tid caller answer := by
  unfold EtsRegistry.read
  rcases h.cases_of_seen hseen with ⟨hnone, hnone'⟩ |
    ⟨table, table', hlookup, hlookup', hdenies, hdenies'⟩ | ⟨table, hlookup, hlookup'⟩
  · rw [hnone, hnone']
  · simp only [hlookup, hlookup', hdenies.read, hdenies'.read]
    rfl
  · rw [hlookup, hlookup']

theorem write (h : SameExcept concealed r r') {tid : TableId} {caller : AgentPid}
    (hseen : (concealed tid && (r.lookup tid).any fun table =>
      table.access = .private && table.owner = caller) = false)
    (update : EtsTable → Except AgentRtError (AList fun _ : String => Json)) :
    (r.write tid caller update).1 = (r'.write tid caller update).1 ∧
      SameExcept concealed (r.write tid caller update).2 (r'.write tid caller update).2 := by
  unfold EtsRegistry.write
  rcases h.cases_of_seen hseen with ⟨hnone, hnone'⟩ |
    ⟨table, table', hlookup, hlookup', hdenies, hdenies'⟩ | ⟨table, hlookup, hlookup'⟩
  · rw [hnone, hnone']
    exact ⟨rfl, h⟩
  · simp only [hlookup, hlookup', hdenies.write, hdenies'.write]
    exact ⟨trivial, h⟩
  · rw [hlookup, hlookup']
    dsimp only
    cases table.checkWriteAccess caller with
    | error failure => exact ⟨rfl, h⟩
    | ok _ =>
        cases update table with
        | error failure => exact ⟨rfl, h⟩
        | ok data => exact ⟨rfl, h.setTable rfl⟩

/-- The owner of a concealed Private table writes under the veil. -/
theorem of_write {tid : TableId} {caller : AgentPid} {table : EtsTable}
    (htid : concealed tid = true) (hlookup : r.lookup tid = some table)
    (haccess : table.access = .private)
    (update : EtsTable → Except AgentRtError (AList fun _ : String => Json)) :
    SameExcept concealed r (r.write tid caller update).2 := by
  have hrefl := (equivalence_sameExcept concealed).refl r
  unfold EtsRegistry.write
  rw [hlookup]
  dsimp only
  cases table.checkWriteAccess caller with
  | error failure => exact hrefl
  | ok _ =>
      cases update table with
      | error failure => exact hrefl
      | ok data =>
          have hwritten : veil concealed tid { table with data } = { table with data := ∅ } :=
            veil_of_concealed htid haccess
          refine ⟨rfl, rfl, rfl, fun q => ?_⟩
          rw [lookup_setTable]
          by_cases hq : q = tid
          · rw [if_pos hq, hq, hlookup, Option.map_some, Option.map_some,
              veil_of_concealed htid haccess, hwritten]
          · rw [if_neg hq]

theorem create (h : SameExcept concealed r r') (name : String) (access : AccessType)
    (owner : AgentPid) (heir : Option AgentPid) :
    (r.create name access owner heir).1 = (r'.create name access owner heir).1 ∧
      SameExcept concealed (r.create name access owner heir).2
        (r'.create name access owner heir).2 := by
  unfold EtsRegistry.create
  rw [h.length_keys, h.maxTables]
  by_cases hfull : r'.tables.keys.length ≥ r'.maxTables
  · simp only [if_pos hfull]
    exact ⟨trivial, h⟩
  · simp only [if_neg hfull]
    rw [h.nextTableId, h.maxEntriesPerTable]
    refine ⟨rfl, SameExcept.setTable ?_ rfl⟩
    exact ⟨rfl, rfl, rfl, h.tables⟩

theorem destroy (h : SameExcept concealed r r') (tid : TableId) (caller : AgentPid) :
    (r.destroy tid caller).1 = (r'.destroy tid caller).1 ∧
      SameExcept concealed (r.destroy tid caller).2 (r'.destroy tid caller).2 := by
  unfold EtsRegistry.destroy
  rcases h.lookup tid with ⟨hnone, hnone'⟩ | ⟨table, table', hlookup, hlookup', hveil⟩
  · rw [hnone, hnone']
    exact ⟨rfl, h⟩
  · have howner : table.owner = table'.owner := by
      simpa using congrArg EtsTable.owner hveil
    rw [hlookup, hlookup']
    dsimp only
    rw [howner]
    by_cases hcaller : table'.owner = caller
    · rw [if_neg (not_not.mpr hcaller), if_neg (not_not.mpr hcaller)]
      exact ⟨rfl, h.removeTable tid⟩
    · rw [if_pos hcaller, if_pos hcaller]
      exact ⟨rfl, h⟩

theorem perform (h : SameExcept concealed r r') {op : EtsOp}
    (hseen : hidden concealed r op = false) :
    (r.perform op).1 = (r'.perform op).1 ∧
      SameExcept concealed (r.perform op).2 (r'.perform op).2 := by
  cases op with
  | create name access owner heir =>
      obtain ⟨hanswer, hafter⟩ := h.create name access owner heir
      exact ⟨congrArg EtsReply.created hanswer, hafter⟩
  | destroy tid caller =>
      obtain ⟨hanswer, hafter⟩ := h.destroy tid caller
      exact ⟨congrArg EtsReply.done hanswer, hafter⟩
  | get tid key caller => exact ⟨congrArg EtsReply.value (h.read hseen _), h⟩
  | put tid key value caller =>
      obtain ⟨hanswer, hafter⟩ := h.write hseen _
      exact ⟨congrArg EtsReply.done hanswer, hafter⟩
  | deleteKey tid key caller =>
      obtain ⟨hanswer, hafter⟩ := h.write hseen fun table => .ok (table.data.erase key)
      exact ⟨congrArg EtsReply.done hanswer, hafter⟩
  | count tid caller => exact ⟨congrArg EtsReply.size (h.read hseen _), h⟩
  | keys tid caller => exact ⟨congrArg EtsReply.keys (h.read hseen _), h⟩
  | scan tid start caller => exact ⟨congrArg EtsReply.entries (h.read hseen _), h⟩
  | filter tid caller predicate => exact ⟨congrArg EtsReply.entries (h.read hseen _), h⟩
  | handleProcessDeath pid => exact ⟨rfl, h.handleProcessDeath pid⟩
  | tableIdsDrawn ids =>
      exact ⟨rfl, h.maxTables, h.maxEntriesPerTable, congrArg (· + ids) h.nextTableId,
        h.tables⟩

theorem of_hidden {op : EtsOp} (hhidden : hidden concealed r op = true) :
    SameExcept concealed r (r.step op) := by
  have hfind : ∀ {tid : TableId} {caller : AgentPid}, op.contents = some (tid, caller) →
      ∃ table, concealed tid = true ∧ r.lookup tid = some table ∧
        table.access = .private := by
    intro tid caller hcontents
    simp only [hidden, hcontents, Option.any_some, Bool.and_eq_true, Option.any_eq_true,
      decide_eq_true_eq] at hhidden
    obtain ⟨htid, table, hlookup, haccess, _⟩ := hhidden
    exact ⟨table, htid, hlookup, haccess⟩
  have hrefl := (equivalence_sameExcept concealed).refl r
  cases op with
  | put tid key value caller =>
      obtain ⟨table, htid, hlookup, haccess⟩ := hfind rfl
      exact of_write htid hlookup haccess _
  | deleteKey tid key caller =>
      obtain ⟨table, htid, hlookup, haccess⟩ := hfind rfl
      exact of_write htid hlookup haccess fun table => .ok (table.data.erase key)
  | get | count | keys | scan | filter => exact hrefl
  | create | destroy | handleProcessDeath | tableIdsDrawn =>
      exact absurd hhidden Bool.false_ne_true

end SameExcept

theorem unwinds_sameExcept (concealed : TableId → Bool) :
    Unwinds step reply (hidden concealed) (SameExcept concealed) where
  equivalence := equivalence_sameExcept concealed
  hides := SameExcept.of_hidden
  answers h hseen := (h.perform hseen).1
  keeps h hseen := (h.perform hseen).2

/-! ## Who writes -/

/-- Tables have ids from the counter. -/
def Numbered (registry : EtsRegistry) : Prop :=
  ∀ tid, (registry.lookup tid).isSome → ∃ n, tid = .ets n ∧ n < registry.nextTableId

theorem lookup_step {registry : EtsRegistry} (hnumbered : Numbered registry) {tid : TableId}
    {table : EtsTable} (hlookup : registry.lookup tid = some table)
    (haccess : table.access ≠ .public) {op : EtsOp}
    (hother : ¬ op.byOwner tid table.owner) :
    (registry.step op).lookup tid = some table := by
  have hwrite : ∀ {target : TableId} {caller : AgentPid},
      ¬ (target = tid ∧ caller = table.owner) →
      ∀ update, (registry.write target caller update).2.lookup tid = some table := by
    intro target caller hnot update
    rcases registry.write_cases target caller update with hsame |
      ⟨found, data, hfound, hcheck, hset⟩
    · rw [hsame, hlookup]
    · rw [hset, lookup_setTable]
      by_cases htarget : tid = target
      · subst htarget
        cases hlookup.symm.trans hfound
        have hcaller : caller ≠ table.owner := fun heq => hnot ⟨rfl, heq⟩
        cases hmode : table.access with
        | «public» => exact absurd hmode haccess
        | «protected» => simp [EtsTable.checkWriteAccess, hmode, hcaller] at hcheck
        | «private» => simp [EtsTable.checkWriteAccess, hmode, hcaller] at hcheck
      · rw [if_neg htarget, hlookup]
  cases op with
  | create name access owner heir =>
      obtain ⟨n, rfl, hn⟩ := hnumbered tid (by simp [hlookup])
      have hfresh : TableId.ets n ≠ .ets registry.nextTableId :=
        fun heq => Nat.ne_of_lt hn (TableId.ets.inj heq)
      simp only [step, perform, create]
      split
      · exact hlookup
      · rw [lookup_setTable, if_neg hfresh]
        exact hlookup
  | destroy target caller =>
      simp only [step, perform, destroy]
      cases hfound : registry.lookup target with
      | none => exact hlookup
      | some found =>
          dsimp only
          split
          · exact hlookup
          · rename_i howner
            rw [lookup_removeTable, if_neg, hlookup]
            rintro rfl
            cases hlookup.symm.trans hfound
            exact hother ⟨rfl, (not_not.mp howner).symm⟩
  | put target key value caller => exact hwrite hother _
  | deleteKey target key caller =>
      exact hwrite hother fun table => .ok (table.data.erase key)
  | get | count | keys | scan | filter | tableIdsDrawn => exact hlookup
  | handleProcessDeath pid =>
      have hpid : table.owner ≠ pid := fun heq => hother heq.symm
      simp only [step, perform]
      rw [lookup_handleProcessDeath, hlookup, Option.bind_some, if_neg hpid]

theorem Numbered.step {registry : EtsRegistry} (h : Numbered registry) (op : EtsOp) :
    Numbered (registry.step op) := by
  have hwrite : ∀ (tid : TableId) (caller : AgentPid)
      (update : EtsTable → Except AgentRtError (AList fun _ : String => Json)),
      Numbered (registry.write tid caller update).2 := by
    intro tid caller update
    rcases registry.write_cases tid caller update with hsame | ⟨table, data, hlookup, _, hset⟩
    · rw [hsame]
      exact h
    · rw [hset]
      intro q hq
      rw [lookup_setTable] at hq
      by_cases heq : q = tid
      · exact h q (by simp [heq, hlookup])
      · rw [if_neg heq] at hq
        exact h q hq
  cases op with
  | create name access owner heir =>
      simp only [EtsRegistry.step, perform, create]
      split
      · exact h
      · intro q hq
        rw [lookup_setTable] at hq
        by_cases heq : q = .ets registry.nextTableId
        · exact ⟨registry.nextTableId, heq, Nat.lt_succ_self _⟩
        · rw [if_neg heq] at hq
          obtain ⟨n, hn, hlt⟩ := h q hq
          exact ⟨n, hn, Nat.lt_succ_of_lt hlt⟩
  | destroy target caller =>
      simp only [EtsRegistry.step, perform, destroy]
      cases registry.lookup target with
      | none => exact h
      | some found =>
          dsimp only
          split
          · exact h
          · intro q hq
            rw [lookup_removeTable] at hq
            by_cases heq : q = target
            · simp [heq] at hq
            · rw [if_neg heq] at hq
              exact h q hq
  | put target key value caller => exact hwrite _ _ _
  | deleteKey target key caller =>
      exact hwrite target caller fun table => .ok (table.data.erase key)
  | get | count | keys | scan | filter => exact h
  | tableIdsDrawn ids =>
      intro q hq
      obtain ⟨n, hn, hlt⟩ := h q hq
      exact ⟨n, hn, Nat.lt_add_right ids hlt⟩
  | handleProcessDeath pid =>
      intro q hq
      have hlimits := (registry.handleProcessDeath_limits pid).2.2
      simp only [EtsRegistry.step, perform] at hq ⊢
      rw [lookup_handleProcessDeath] at hq
      rw [hlimits]
      apply h q
      cases hlookup : registry.lookup q with
      | none => simp [hlookup] at hq
      | some table => rfl

theorem Numbered.run (maxTables maxEntriesPerTable nextTableId : Nat) (ops : List EtsOp) :
    Numbered ((new maxTables maxEntriesPerTable nextTableId).run ops) := by
  have hkeeps : ∀ (ops : List EtsOp) {registry : EtsRegistry}, Numbered registry →
      Numbered (registry.run ops) := by
    intro ops
    induction ops with
    | nil => exact fun h => h
    | cons op rest ih => exact fun h => ih (h.step op)
  apply hkeeps
  intro tid hlookup
  exact absurd hlookup Bool.false_ne_true

/-- Two runs, whatever operations the owners of concealed Private tables do on their
contents, are answered alike in all else; and what stands in a Private or Protected table
stays as it is unless its present owner changes it, or ends. -/
theorem private_tables_isolated :
    (∀ (concealed : TableId → Bool) (first second : EtsRegistry) (ops ops' : List EtsOp),
      SameExcept concealed first second →
      purge step (hidden concealed) first ops = purge step (hidden concealed) second ops' →
      observed step reply (hidden concealed) first ops =
        observed step reply (hidden concealed) second ops') ∧
    ∀ (maxTables maxEntriesPerTable nextTableId : Nat) (ops : List EtsOp) (op : EtsOp)
      (tid : TableId) (table : EtsTable),
      ((new maxTables maxEntriesPerTable nextTableId).run ops).lookup tid = some table →
      table.access ≠ .public → ¬ op.byOwner tid table.owner →
      ((new maxTables maxEntriesPerTable nextTableId).run (ops ++ [op])).lookup tid =
        some table := by
  constructor
  · intro concealed first second ops ops' hsame hpurge
    exact ((unwinds_sameExcept concealed).observed_eq hsame hpurge).1
  · intro maxTables maxEntriesPerTable nextTableId ops op tid table hlookup haccess hother
    rw [run, List.foldl_concat]
    exact lookup_step (Numbered.run _ _ _ ops) hlookup haccess hother

/-- The owner of a Private table puts a secret into it; somebody else tries to read and to
overwrite it. -/
def secretOps (secret : Json) : List EtsOp :=
  [.create "t" .private 1 none, .put (.ets 0) "k" secret 1, .get (.ets 0) "k" 2,
    .put (.ets 0) "k" .null 2]

theorem private_tables_isolated_secret :
    observed step reply (hidden fun _ => true) (new 4 4 0) (secretOps (.bool true)) =
        observed step reply (hidden fun _ => true) (new 4 4 0) (secretOps (.bool false)) ∧
      ((new 4 4 0).run (secretOps (.bool true))).lookup (.ets 0) =
        ((new 4 4 0).run ((secretOps (.bool true)).take 2)).lookup (.ets 0) := by
  obtain ⟨hseen, hkept⟩ := private_tables_isolated
  constructor
  · exact hseen (fun _ => true) (new 4 4 0) (new 4 4 0) _ _
      ((equivalence_sameExcept _).refl _) rfl
  · have hread := hkept 4 4 0 ((secretOps (.bool true)).take 2) (.get (.ets 0) "k" 2) (.ets 0)
      _ rfl (by decide) (by exact id)
    exact hkept 4 4 0 ((secretOps (.bool true)).take 3) (.put (.ets 0) "k" .null 2) (.ets 0)
      _ hread (by decide) (by rintro ⟨_, heq⟩; exact absurd heq (by decide))

end EtsRegistry

end Zeptobeam
