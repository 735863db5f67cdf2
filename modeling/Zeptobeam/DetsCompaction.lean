/-
Compaction of a disk-backed table and what a stop between its steps leaves.  The
new snapshot already holds the effects of the log, so replaying the log over it
changes nothing; before the rename the old files must hold the table's map, which
they do as long as writes are logged.
-/
import Zeptobeam.DetsDurability

namespace Zeptobeam

open LineFile

namespace DetsTable

variable (serde : SerdeJson)

/-- The directories a stop between the steps of `compact` leaves: the temporary
snapshot written, renamed over the old snapshot, and the log truncated. -/
def compactStates (order : HashOrder) (table : DetsTable) (dir : DetsDir) :
    List DetsDir :=
  let written := writeSnapshot serde order table dir
  let renamed := renameSnapshot written
  [written, renamed, truncateLog renamed]

/-- The lines of a log do the same to every cache. -/
theorem replayLog_eq_ok {lines : List (Option (List Char))} {cache cache' : DetsCache}
    (h : replayLog serde cache lines = .ok cache') :
    ∃ log : List (ReplayLog.Record String Json), cache' = log.foldl ReplayLog.applyTo cache ∧
      ∀ other, replayLog serde other lines = .ok (log.foldl ReplayLog.applyTo other) := by
  induction lines generalizing cache with
  | nil =>
      obtain rfl : cache = cache' := Except.ok.inj h
      exact ⟨[], rfl, fun _ => rfl⟩
  | cons item rest ih =>
      cases item with
      | none => simp [replayLog] at h
      | some text =>
          by_cases hblank : isBlank text = true
          · simp only [replayLog, hblank, ↓reduceIte] at h
            obtain ⟨log, hcache, hall⟩ := ih h
            refine ⟨log, hcache, ?_⟩
            intro other
            simpa only [replayLog, hblank, ↓reduceIte] using hall other
          · cases hentry : (serde.fromStr text).bind DetsLogEntry.fromJson with
            | none => simp [replayLog, hblank, hentry] at h
            | some entry =>
                simp only [replayLog, hblank, Bool.false_eq_true, ↓reduceIte, hentry] at h
                obtain ⟨log, hcache, hall⟩ := ih h
                refine ⟨entry.record?.toList ++ log, ?_, ?_⟩
                · rw [hcache]
                  cases hrecord : entry.record? <;> simp [applyLogEntry, hrecord]
                · intro other
                  simp only [replayLog, hblank, Bool.false_eq_true, ↓reduceIte, hentry, hall]
                  cases hrecord : entry.record? <;> simp [applyLogEntry, hrecord]

/-- Replaying records over an association list that already is their result. -/
theorem lookup_replay_again (log : List (ReplayLog.Record String Json))
    (base : DetsCache) {cache : DetsCache} (h : ∀ k, cache.lookup k =
      (log.foldl ReplayLog.applyTo base).lookup k) (k : String) :
    (log.foldl ReplayLog.applyTo cache).lookup k = cache.lookup k := by
  have hmap : (fun k => cache.lookup k) =
      ReplayLog.replay (fun k => base.lookup k) log := by
    rw [← ReplayLog.lookup_foldl_applyTo]
    exact funext h
  have hagain := congrFun (ReplayLog.lookup_foldl_applyTo log cache) k
  rw [hmap, ReplayLog.replay_replay, ← hmap] at hagain
  exact hagain

end DetsTable

namespace DetsRun

variable {serde : SerdeJson}

/-- The write compacts the table, or is made with the log open. -/
def Recorded (s : DetsRun) : DetsOp → Prop
  | .put _ _ _ _ => s.table.CompactsNext ∨ s.table.logOpen = true
  | .deleteKey _ _ _ => s.table.CompactsNext ∨ s.table.logOpen = true
  | _ => True

/-- The files hold the cache, but for keys whose value is `null`. -/
def InSyncButNull (serde : SerdeJson) (s : DetsRun) : Prop :=
  ∃ image, s.dir = DetsTable.files serde s.table.name image ∧
    ∀ k, image.cache.lookup k = s.table.cache.lookup k ∨
      s.table.cache.lookup k = some .null

/-- A write that compacts the table, or whose log entry records the new map. -/
theorem InSyncButNull.of_recorded {s s' : DetsRun} {order : HashOrder}
    {image image' pushed : DetsImage} (hname : s'.table.name = s.table.name)
    (hrecorded : s.table.CompactsNext ∨ s.table.logOpen = true)
    (hfiles : s'.dir = DetsTable.files serde s.table.name image')
    (hcompacted : s.table.CompactsNext → image' = .compacted order s'.table.cache)
    (hlog : ¬ s.table.CompactsNext → image' = if s.table.logOpen then pushed else image)
    (hpushed : ∀ k, pushed.cache.lookup k = s'.table.cache.lookup k ∨
      s'.table.cache.lookup k = some .null) : s'.InSyncButNull serde := by
  refine ⟨image', by rw [hfiles, hname], ?_⟩
  intro k
  by_cases hcompacts : s.table.CompactsNext
  · left
    rw [hcompacted hcompacts]
    exact DetsImage.lookup_compacted order s'.table.cache k
  · rw [hlog hcompacts, if_pos (hrecorded.resolve_left hcompacts)]
    exact hpushed k

theorem InSyncButNull.put {s s' : DetsRun} {order : HashOrder} {key : String}
    {value : Json} {caller : AgentPid} (h : s.InSyncButNull serde)
    (hrecorded : s.Recorded (.put order key value caller))
    (hs' : s.step serde (.put order key value caller) = .ok s') :
    s'.InSyncButNull serde := by
  obtain ⟨image, hfiles, hlookup⟩ := h
  obtain ⟨hcache, hname, image', hfiles', hcompacted, hlog⟩ := step_put hfiles hs'
  refine .of_recorded hname hrecorded hfiles' hcompacted hlog fun k => ?_
  rw [hcache, DetsImage.lookup_push_put]
  by_cases hk : k = key
  · by_cases hnull : value = .null
    · right
      rw [hk, AList.lookup_insert, hnull]
    · left
      rw [if_neg hnull, hk, AList.lookup_insert, AList.lookup_insert]
  · rw [AList.lookup_insert_ne hk, AList.lookup_insert_ne hk, ite_self]
    exact hlookup k

theorem InSyncButNull.deleteKey {s s' : DetsRun} {order : HashOrder} {key : String}
    {caller : AgentPid} (h : s.InSyncButNull serde)
    (hrecorded : s.Recorded (.deleteKey order key caller))
    (hs' : s.step serde (.deleteKey order key caller) = .ok s') :
    s'.InSyncButNull serde := by
  obtain ⟨image, hfiles, hlookup⟩ := h
  obtain ⟨hcache, hname, image', hfiles', hcompacted, hlog⟩ := step_deleteKey hfiles hs'
  refine .of_recorded hname hrecorded hfiles' hcompacted hlog fun k => ?_
  rw [hcache, DetsImage.lookup_push_delete]
  by_cases hk : k = key
  · left
    rw [hk, AList.lookup_erase, AList.lookup_erase]
  · rw [AList.lookup_erase_ne hk, AList.lookup_erase_ne hk]
    exact hlookup k

theorem InSyncButNull.step {s s' : DetsRun} {op : DetsOp} (h : s.InSyncButNull serde)
    (hrecorded : s.Recorded op) (hs' : s.step serde op = .ok s') :
    s'.InSyncButNull serde := by
  cases op with
  | put order key value caller => exact h.put hrecorded hs'
  | deleteKey order key caller => exact h.deleteKey hrecorded hs'
  | compact order =>
      obtain ⟨image, hfiles, _⟩ := h
      obtain ⟨htable, hfiles'⟩ := step_compact hfiles hs'
      refine ⟨.compacted order s.table.cache, by rw [hfiles', htable], ?_⟩
      intro k
      left
      rw [htable]
      exact DetsImage.lookup_compacted order s.table.cache k
  | close =>
      obtain rfl : { s with table := s.table.close } = s' := Except.ok.inj hs'
      exact h
  | reopen config =>
      obtain ⟨image, hfiles, _⟩ := h
      obtain ⟨hcache, hname, hdir⟩ := step_reopen hfiles hs'
      refine ⟨image, by rw [hdir, hname, hfiles], ?_⟩
      intro k
      left
      rw [hcache]

/-- Replaying a log over a snapshot that already has its effects changes nothing:
whatever the files are, they still open to the table's map when their snapshot is
replaced by one of that map. -/
theorem Reopens.of_snapshot {name : String} {dir dir' : DetsDir} {table : DetsTable}
    (h : Reopens serde name dir table.cache) (order : HashOrder)
    (hdat : dir'.dat = some (DetsTable.snapshotBytes serde order table))
    (hlog : dir'.log = dir.log) : Reopens serde name dir' table.cache := by
  obtain ⟨base, found, _, hfound, hlookup⟩ := reopens_iff.mp h
  have hload := ReplayLog.lookup_load_of_perm (order.walk_perm table.cache)
  have hdat' : DetsTable.readDat serde dir'.dat =
      .ok (ReplayLog.load (order.walk table.cache)) := by
    rw [hdat, DetsTable.snapshotBytes_eq]
    exact DetsTable.loadDat_datBytes serde table.name (order.walk table.cache)
  apply reopens_iff.mpr
  rw [hlog]
  cases hfile : dir.log with
  | none => exact ⟨_, _, hdat', rfl, hload⟩
  | some file =>
      rw [hfile] at hfound
      obtain ⟨log, hresult, hall⟩ := DetsTable.replayLog_eq_ok serde hfound
      refine ⟨_, _, hdat', hall _, ?_⟩
      intro k
      rw [← hload k]
      apply DetsTable.lookup_replay_again log base
      intro k
      rw [hload, ← hlookup, hresult]

theorem Reopens.congr {name : String} {dir dir' : DetsDir} {cache : DetsCache}
    (h : Reopens serde name dir cache) (hdat : dir'.dat = dir.dat)
    (hlog : dir'.log = dir.log) : Reopens serde name dir' cache := by
  apply reopens_iff.mpr
  rw [hdat, hlog]
  exact reopens_iff.mp h

/-- For every table and all files: a compaction may stop after any of its steps
exactly when the files open to the table's map before it. -/
theorem reopens_compactStates_iff (name : String) (order : HashOrder) (table : DetsTable)
    (dir : DetsDir) :
    (∀ stopped ∈ DetsTable.compactStates serde order table dir,
      Reopens serde name stopped table.cache) ↔ Reopens serde name dir table.cache := by
  simp only [DetsTable.compactStates, List.forall_mem_cons]
  constructor
  · intro h
    exact h.1.congr rfl rfl
  · intro h
    refine ⟨h.congr rfl rfl, h.of_snapshot order rfl rfl, ?_, ?_⟩
    · apply reopens_iff.mpr
      have hload := ReplayLog.lookup_load_of_perm (order.walk_perm table.cache)
      refine ⟨ReplayLog.load (order.walk table.cache), _, ?_, rfl, hload⟩
      simp only [DetsTable.truncateLog, DetsTable.renameSnapshot, DetsTable.writeSnapshot,
        DetsTable.snapshotBytes_eq]
      exact DetsTable.loadDat_datBytes serde table.name (order.walk table.cache)
    · intro stopped hstopped
      exact absurd hstopped List.not_mem_nil

theorem InSyncButNull.reopens {s : DetsRun} (h : s.InSyncButNull serde)
    (hnull : ∀ k, s.table.cache.lookup k ≠ some .null) :
    Reopens serde s.table.name s.dir s.table.cache := by
  obtain ⟨image, hfiles, hlookup⟩ := h
  rw [hfiles, reopens_files]
  intro k
  rcases hlookup k with hsame | hk
  · exact hsame
  · exact absurd hk (hnull k)

variable (serde)

/-- In every run whose writes are made with the log open, or compact the table, a
compaction may stop after any of its steps and the files still open to the map
the table held, provided that the map has no `null`. -/
theorem compact_crash_safe (name : String) (config : DetsConfig) (ops : List DetsOp)
    (hrecorded : ∀ pre op, pre ++ [op] <+: ops → ∀ s s', run serde name config pre = .ok s →
      s.step serde op = .ok s' → s.Recorded op) :
    ∀ pre, pre <+: ops → ∀ s, run serde name config pre = .ok s →
      (∀ k, s.table.cache.lookup k ≠ some .null) → ∀ order,
      ∀ stopped ∈ DetsTable.compactStates serde order s.table s.dir,
        Reopens serde s.table.name stopped s.table.cache := by
  intro pre hpre s hs hnull order
  have hstart : InSyncButNull serde
      ⟨.opened name config ∅, DetsTable.files serde name .empty⟩ :=
    ⟨.empty, rfl, fun _ => Or.inl rfl⟩
  simp only [run, start_eq] at hrecorded hs
  have hguarded : GuardedRun.GuardedOk (step serde) Recorded
      ⟨.opened name config ∅, DetsTable.files serde name .empty⟩ ops := hrecorded
  have hsync := GuardedRun.invariant_of_guardedOk (InSyncButNull serde) hstart
    (fun _ _ _ h hop hs' => h.step hop hs') (hguarded.shorten hpre) hs
  exact (reopens_compactStates_iff s.table.name order s.table s.dir).mpr
    (hsync.reopens hnull)

theorem insert_true_ne_null (key k : String) :
    (AList.insert key (.bool true) ∅ : DetsCache).lookup k ≠ some .null := by
  by_cases hk : k = key
  · rw [hk, AList.lookup_insert]
    simp
  · rw [AList.lookup_insert_ne hk, AList.lookup_empty]
    simp

/-- One put, and a compaction that is stopped at any point. -/
theorem compact_crash_safe_after_put :
    ∃ s, run .compact "t" ⟨.public, 1, none, 100, 100⟩
        [.put .latestFirst "k" (.bool true) 1] = .ok s ∧
      ∀ stopped ∈ DetsTable.compactStates .compact .latestFirst s.table s.dir,
        Reopens .compact s.table.name stopped s.table.cache := by
  have hrun : run .compact "t" ⟨.public, 1, none, 100, 100⟩
      [.put .latestFirst "k" (.bool true) 1] =
      .ok ⟨{ DetsTable.opened "t" ⟨.public, 1, none, 100, 100⟩
          (AList.insert "k" (.bool true) ∅) with dirtyCount := 1 },
        DetsTable.files .compact "t" (.push .empty ⟨"put", "k", some (.bool true)⟩)⟩ := by
    have hlog := DetsTable.appendLog_files .compact
      (.opened "t" ⟨.public, 1, none, 100, 100⟩ ∅) .empty ⟨"put", "k", some (.bool true)⟩
    rw [run_singleton]
    simp only [DetsTable.opened] at hlog ⊢
    simp [step, DetsTable.put, DetsTable.checkWrite, hlog, DetsTable.finishWrite, bind,
      Except.bind]
  refine ⟨_, hrun, ?_⟩
  apply compact_crash_safe .compact "t" ⟨.public, 1, none, 100, 100⟩
    [.put .latestFirst "k" (.bool true) 1] _ _ List.prefix_rfl _ hrun
    (insert_true_ne_null "k")
  intro pre op hpre s s' hs _
  obtain ⟨rfl, rfl⟩ : pre = [] ∧ op = .put .latestFirst "k" (.bool true) 1 := by
    cases pre with
    | nil => exact ⟨rfl, by simpa using hpre⟩
    | cons first rest => simp at hpre
  simp only [run, start_eq] at hs
  obtain rfl := Except.ok.inj hs
  exact Or.inr rfl

/-- A put after `close` is answered `Ok` and not logged; when the compaction that
would save it stops at the temporary snapshot, the key is gone. -/
theorem put_after_close_lost_in_compaction :
    ∃ s, run .compact "t" ⟨.public, 1, none, 100, 100⟩
        [.close, .put .latestFirst "k" (.bool true) 1] = .ok s ∧
      (∀ k, s.table.cache.lookup k ≠ some .null) ∧
      ∃ stopped ∈ DetsTable.compactStates .compact .latestFirst s.table s.dir,
        ¬ Reopens .compact s.table.name stopped s.table.cache := by
  have hrun : run .compact "t" ⟨.public, 1, none, 100, 100⟩
      [.close, .put .latestFirst "k" (.bool true) 1] =
      .ok ⟨{ DetsTable.opened "t" ⟨.public, 1, none, 100, 100⟩
          (AList.insert "k" (.bool true) ∅) with dirtyCount := 1, logOpen := false },
        DetsTable.files .compact "t" .empty⟩ := by
    simp only [run, start_eq, bind, Except.bind, List.foldlM_cons, List.foldlM_nil, step,
      DetsTable.close, DetsTable.opened]
    simp [DetsTable.put, DetsTable.checkWrite, DetsTable.appendLog, DetsTable.finishWrite,
      pure, Except.pure, bind, Except.bind]
  refine ⟨_, hrun, insert_true_ne_null "k", _, List.mem_cons_self, ?_⟩
  intro hreopens
  have hold : Reopens .compact "t" (DetsTable.files .compact "t" .empty) _ :=
    hreopens.congr rfl rfl
  have hkey := (reopens_files "t" .empty _).mp hold "k"
  have hfound : (none : Option Json) = some (.bool true) := hkey
  exact absurd hfound (by simp)

end DetsRun

end Zeptobeam
