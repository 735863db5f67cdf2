/-
The owners of tables and their deaths.  No table is owned by a process that is gone, as
long as the heir of every table whose owner dies is alive.
-/
import Zeptobeam.Ets
import Zeptobeam.Lib.GuardedRun

namespace Zeptobeam

/-- A registry, and the processes that are gone. -/
structure EtsWorld where
  registry : EtsRegistry
  dead : List AgentPid

namespace EtsWorld

open GuardedRun EtsRegistry

/-- Tables are created by the living, and every death is reported once: nothing else is a
step. -/
def step (world : EtsWorld) (op : EtsOp) : Except String EtsWorld :=
  let registry := world.registry.step op
  match op with
  | .create _ _ owner _ =>
      if owner ∈ world.dead then .error "the owner is dead" else .ok { world with registry }
  | .handleProcessDeath pid =>
      if pid ∈ world.dead then .error "the death was reported"
      else .ok ⟨registry, pid :: world.dead⟩
  | _ => .ok { world with registry }

/-- No table is owned by a process that is gone. -/
def OwnersAlive (world : EtsWorld) : Prop :=
  ∀ tid table, world.registry.lookup tid = some table → table.owner ∉ world.dead

/-- When a process dies, the heirs of its tables are alive, and others. -/
def HeirsAlive (world : EtsWorld) : EtsOp → Prop
  | .handleProcessDeath pid => ∀ tid table heir, world.registry.lookup tid = some table →
      table.owner = pid → table.heir = some heir → heir ≠ pid ∧ heir ∉ world.dead
  | _ => True

/-- Every table comes to a living heir, if it has one, when its owner dies. -/
def Inherited (world : EtsWorld) (pid : AgentPid) : Prop :=
  ∀ tid table heir, world.registry.lookup tid = some table → table.owner = pid →
    table.heir = some heir → heir ≠ pid → heir ∉ world.dead →
    (world.registry.handleProcessDeath pid).lookup tid =
      some { table with owner := heir, heir := none }

/-- An operation leaves a table with an owner it had, or with the one who creates it; the
death of the owner apart. -/
theorem owner_step (registry : EtsRegistry) {op : EtsOp}
    (hdeath : ∀ pid, op ≠ .handleProcessDeath pid) {tid : TableId} {table : EtsTable}
    (h : (registry.step op).lookup tid = some table) :
    (∃ found, registry.lookup tid = some found ∧ found.owner = table.owner) ∨
      ∃ name access heir, op = .create name access table.owner heir := by
  have hkept : ∀ {registry' : EtsRegistry}, registry'.lookup tid = some table →
      (∀ q, registry'.lookup q = registry.lookup q) →
      ∃ found, registry.lookup tid = some found ∧ found.owner = table.owner :=
    fun hfound hsame => ⟨table, hsame tid ▸ hfound, rfl⟩
  have hwrite : ∀ (target : TableId) (caller : AgentPid)
      (update : EtsTable → Except AgentRtError (AList fun _ : String => Json)),
      (registry.write target caller update).2.lookup tid = some table →
      ∃ found, registry.lookup tid = some found ∧ found.owner = table.owner := by
    intro target caller update hfound
    rcases registry.write_cases target caller update with hsame | ⟨found, data, hlookup, _, hset⟩
    · exact ⟨table, hsame ▸ hfound, rfl⟩
    · rw [hset, lookup_setTable] at hfound
      by_cases htarget : tid = target
      · rw [if_pos htarget, Option.some.injEq] at hfound
        exact ⟨found, htarget ▸ hlookup, by rw [← hfound]⟩
      · rw [if_neg htarget] at hfound
        exact ⟨table, hfound, rfl⟩
  cases op with
  | create name access owner heir =>
      simp only [EtsRegistry.step, perform, create] at h
      split at h
      · exact .inl ⟨table, h, rfl⟩
      · rw [lookup_setTable] at h
        by_cases htid : tid = .ets registry.nextTableId
        · rw [if_pos htid, Option.some.injEq] at h
          exact .inr ⟨name, access, heir, by rw [← h]⟩
        · rw [if_neg htid] at h
          exact .inl ⟨table, h, rfl⟩
  | destroy target caller =>
      simp only [EtsRegistry.step, perform, destroy] at h
      cases hfound : registry.lookup target with
      | none =>
          rw [hfound] at h
          exact .inl ⟨table, h, rfl⟩
      | some found =>
          rw [hfound] at h
          dsimp only at h
          split at h
          · exact .inl ⟨table, h, rfl⟩
          · rw [lookup_removeTable] at h
            by_cases htid : tid = target
            · simp [htid] at h
            · rw [if_neg htid] at h
              exact .inl ⟨table, h, rfl⟩
  | put target key value caller => exact .inl (hwrite target caller _ h)
  | deleteKey target key caller =>
      exact .inl (hwrite target caller (fun table => .ok (table.data.erase key)) h)
  | get | count | keys | scan | filter | tableIdsDrawn => exact .inl ⟨table, h, rfl⟩
  | handleProcessDeath pid => exact absurd rfl (hdeath pid)

theorem OwnersAlive.step {world world' : EtsWorld} {op : EtsOp} (h : OwnersAlive world)
    (hheirs : HeirsAlive world op) (hstep : world.step op = .ok world') :
    OwnersAlive world' := by
  have hother : (∀ pid, op ≠ .handleProcessDeath pid) →
      (∀ name access owner heir, op = .create name access owner heir → owner ∉ world.dead) →
      OwnersAlive { world with registry := world.registry.step op } := by
    intro hdeath hcreate tid table hlookup
    rcases owner_step world.registry hdeath hlookup with ⟨found, hfound, howner⟩ |
      ⟨name, access, heir, hop⟩
    · rw [← howner]
      exact h tid found hfound
    · exact hcreate name access table.owner heir hop
  cases op with
  | create name access owner heir =>
      simp only [EtsWorld.step] at hstep
      split at hstep
      · contradiction
      · rename_i halive
        cases hstep
        apply hother (fun _ => by simp)
        intro _ _ other _ hop
        obtain ⟨_, _, rfl, _⟩ := EtsOp.create.inj hop
        exact halive
  | handleProcessDeath pid =>
      simp only [EtsWorld.step] at hstep
      split at hstep
      · contradiction
      · cases hstep
        intro tid table hlookup
        have hafter := world.registry.lookup_handleProcessDeath pid tid
        rw [show world.registry.step (.handleProcessDeath pid) =
          world.registry.handleProcessDeath pid from rfl] at hlookup
        rw [hlookup] at hafter
        obtain ⟨found, hfound, hkept⟩ := Option.bind_eq_some_iff.mp hafter.symm
        rw [List.mem_cons, not_or]
        by_cases howner : found.owner = pid
        · rw [if_pos howner] at hkept
          obtain ⟨heir, hheir, rfl⟩ := Option.map_eq_some_iff.mp hkept
          exact hheirs tid found heir hfound howner hheir
        · rw [if_neg howner, Option.some.injEq] at hkept
          exact ⟨hkept ▸ howner, hkept ▸ h tid found hfound⟩
  | destroy | get | put | deleteKey | count | keys | scan | filter | tableIdsDrawn =>
      cases hstep
      exact hother (fun _ => by simp) fun _ _ _ _ hop => by simp at hop

/-- An heir who is gone, or the owner itself as heir, is left with the table. -/
theorem not_ownersAlive_of_step {world world' : EtsWorld} {op : EtsOp}
    (hheirs : ¬ HeirsAlive world op) (hstep : world.step op = .ok world') :
    ¬ OwnersAlive world' := by
  cases op with
  | handleProcessDeath pid =>
      simp only [HeirsAlive, not_forall] at hheirs
      obtain ⟨tid, table, heir, hlookup, howner, hheir, hgone⟩ := hheirs
      simp only [EtsWorld.step] at hstep
      split at hstep
      · contradiction
      · cases hstep
        intro halive
        have hafter : (world.registry.step (.handleProcessDeath pid)).lookup tid =
            some { table with owner := heir, heir := none } := by
          simp only [EtsRegistry.step, perform]
          rw [lookup_handleProcessDeath, hlookup, Option.bind_some, if_pos howner, hheir]
          rfl
        have hnot := halive tid _ hafter
        rw [List.mem_cons, not_or] at hnot
        exact hgone hnot
  | _ => exact absurd trivial hheirs

/-- In every run from an empty registry: no table is ever owned by a process that is gone,
exactly if at every death the heirs of the tables are alive; and no table with a living
heir is lost. -/
theorem owners_alive_iff (maxTables maxEntriesPerTable nextTableId : Nat) (ops : List EtsOp) :
    (ThroughoutOk EtsWorld.step OwnersAlive ⟨.new maxTables maxEntriesPerTable nextTableId, []⟩
        ops ↔
      GuardedOk EtsWorld.step HeirsAlive ⟨.new maxTables maxEntriesPerTable nextTableId, []⟩
        ops) ∧
    ThroughoutOk EtsWorld.step (fun world => ∀ pid, Inherited world pid)
      ⟨.new maxTables maxEntriesPerTable nextTableId, []⟩ ops := by
  constructor
  · have hstart : OwnersAlive ⟨.new maxTables maxEntriesPerTable nextTableId, []⟩ := by
      intro tid table hlookup
      contradiction
    apply throughoutOk_iff_guardedOk HeirsAlive OwnersAlive hstart
    · exact fun world op world' h hheirs hstep => h.step hheirs hstep
    · exact fun _ => id
    · exact fun world op world' _ hheirs hstep => not_ownersAlive_of_step hheirs hstep
  · intro pre _ world _ pid tid table heir hlookup howner hheir _ _
    rw [lookup_handleProcessDeath, hlookup, Option.bind_some, if_pos howner, hheir]
    rfl

/-- The heir of a table dies first, and then its owner. -/
theorem dead_heir_owns :
    ¬ ThroughoutOk EtsWorld.step OwnersAlive ⟨.new 4 4 0, []⟩
      [.create "t" .public 1 (some 2), .handleProcessDeath 2, .handleProcessDeath 1] := by
  intro halive
  have hlast := halive _ List.prefix_rfl _ rfl (.ets 0) _ rfl
  exact hlast (by decide)

end EtsWorld

end Zeptobeam
