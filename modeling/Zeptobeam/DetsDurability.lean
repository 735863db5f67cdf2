/-
Durability of disk-backed tables over whole runs: the files open to the cache at
every point exactly when each write reaches them, which a put of `null` does not,
nor a write after `close`, unless the same write makes the table compact itself.
-/
import Zeptobeam.DetsFiles

namespace Zeptobeam

namespace DetsRun

variable (serde : SerdeJson)

/-- Opening the files again gives the map in memory. -/
def Durable (s : DetsRun) : Prop :=
  Reopens serde s.table.name s.dir s.table.cache

/-- The write reaches the files, or changes nothing in the cache. -/
def Logged (s : DetsRun) : DetsOp → Prop
  | .put _ key value _ =>
      s.table.CompactsNext ∨ s.table.cache.lookup key = some value ∨
        (s.table.logOpen = true ∧ value ≠ .null)
  | .deleteKey _ key _ =>
      s.table.CompactsNext ∨ key ∉ s.table.cache ∨ s.table.logOpen = true
  | _ => True

/-- The files hold the cache. -/
def InSync (s : DetsRun) : Prop :=
  ∃ image, s.dir = DetsTable.files serde s.table.name image ∧
    ∀ k, image.cache.lookup k = s.table.cache.lookup k

variable {serde}

/-- Only the snapshot and the log decide what a directory opens to. -/
theorem reopens_iff {name : String} {dir : DetsDir} {cache : DetsCache} :
    Reopens serde name dir cache ↔
      ∃ base found, DetsTable.readDat serde dir.dat = .ok base ∧
        DetsTable.readLog serde base dir.log = .ok found ∧
        ∀ k, found.lookup k = cache.lookup k := by
  constructor
  · intro h
    obtain ⟨table, dir', hopen, hlookup⟩ := h ⟨.public, 0, none, 0, 0⟩
    obtain ⟨base, found, hdat, hlog, rfl, _⟩ := (DetsTable.open_eq_ok serde).mp hopen
    exact ⟨base, found, hdat, hlog, hlookup⟩
  · rintro ⟨base, found, hdat, hlog, hlookup⟩ config
    refine ⟨.opened name config found, { dir with log := some (dir.log.getD []) }, ?_,
      hlookup⟩
    exact (DetsTable.open_eq_ok serde).mpr ⟨base, found, hdat, hlog, rfl, rfl⟩

theorem reopens_files (name : String) (image : DetsImage) (cache : DetsCache) :
    Reopens serde name (DetsTable.files serde name image) cache ↔
      ∀ k, image.cache.lookup k = cache.lookup k := by
  obtain ⟨base, found, hdat, hlog, hopened, _⟩ := (DetsTable.open_eq_ok serde).mp
    (DetsTable.open_files serde name ⟨.public, 0, none, 0, 0⟩ image)
  obtain rfl : found = image.cache := congrArg DetsTable.cache hopened
  rw [reopens_iff]
  constructor
  · rintro ⟨base', found', hdat', hlog', hlookup⟩
    obtain rfl : base = base' := Except.ok.inj (hdat.symm.trans hdat')
    obtain rfl : image.cache = found' := Except.ok.inj (hlog.symm.trans hlog')
    exact hlookup
  · intro hlookup
    exact ⟨base, image.cache, hdat, hlog, hlookup⟩

theorem InSync.durable {s : DetsRun} (h : s.InSync serde) : s.Durable serde := by
  obtain ⟨image, hfiles, hlookup⟩ := h
  rw [Durable, hfiles, reopens_files]
  exact hlookup

theorem lookup_insert_same {cache : DetsCache} {key : String} {value : Json}
    (hsame : cache.lookup key = some value) (k : String) :
    (cache.insert key value).lookup k = cache.lookup k := by
  by_cases hk : k = key
  · rw [hk, AList.lookup_insert, hsame]
  · rw [AList.lookup_insert_ne hk]

theorem lookup_erase_absent {cache : DetsCache} {key : String} (habsent : key ∉ cache)
    (k : String) : (cache.erase key).lookup k = cache.lookup k := by
  by_cases hk : k = key
  · rw [hk, AList.lookup_erase, AList.lookup_eq_none.mpr habsent]
  · rw [AList.lookup_erase_ne hk]

/-- Maps that agree go on agreeing after the same insertion. -/
theorem lookup_insert_congr {cache cache' : DetsCache}
    (h : ∀ k, cache.lookup k = cache'.lookup k) (key : String) (value : Json) (k : String) :
    (cache.insert key value).lookup k = (cache'.insert key value).lookup k := by
  by_cases hk : k = key
  · rw [hk, AList.lookup_insert, AList.lookup_insert]
  · rw [AList.lookup_insert_ne hk, AList.lookup_insert_ne hk, h]

theorem lookup_erase_congr {cache cache' : DetsCache}
    (h : ∀ k, cache.lookup k = cache'.lookup k) (key k : String) :
    (cache.erase key).lookup k = (cache'.erase key).lookup k := by
  by_cases hk : k = key
  · rw [hk, AList.lookup_erase, AList.lookup_erase]
  · rw [AList.lookup_erase_ne hk, AList.lookup_erase_ne hk, h]

/-! ## One step -/

theorem InSync.put {s s' : DetsRun} {order : HashOrder} {key : String} {value : Json}
    {caller : AgentPid} (h : s.InSync serde)
    (hlogged : s.Logged (.put order key value caller))
    (hs' : s.step serde (.put order key value caller) = .ok s') : s'.InSync serde := by
  obtain ⟨image, hfiles, hlookup⟩ := h
  obtain ⟨hcache, hname, image', hfiles', hcompacted, hlog⟩ := step_put hfiles hs'
  refine ⟨image', by rw [hfiles', hname], ?_⟩
  by_cases hcompacts : s.table.CompactsNext
  · rw [hcompacted hcompacts]
    exact DetsImage.lookup_compacted order s'.table.cache
  · intro k
    rw [hlog hcompacts, hcache]
    rcases hlogged with hyes | hsame | ⟨hopen, hnull⟩
    · exact absurd hyes hcompacts
    · by_cases hopen : s.table.logOpen = true
      · rw [if_pos hopen, DetsImage.lookup_push_put]
        by_cases hnull : value = .null
        · rw [if_pos hnull, lookup_insert_same hsame, hlookup]
        · rw [if_neg hnull]
          exact lookup_insert_congr hlookup key value k
      · rw [if_neg hopen, lookup_insert_same hsame, hlookup]
    · rw [if_pos hopen, DetsImage.lookup_push_put, if_neg hnull]
      exact lookup_insert_congr hlookup key value k

theorem InSync.deleteKey {s s' : DetsRun} {order : HashOrder} {key : String}
    {caller : AgentPid} (h : s.InSync serde)
    (hlogged : s.Logged (.deleteKey order key caller))
    (hs' : s.step serde (.deleteKey order key caller) = .ok s') : s'.InSync serde := by
  obtain ⟨image, hfiles, hlookup⟩ := h
  obtain ⟨hcache, hname, image', hfiles', hcompacted, hlog⟩ := step_deleteKey hfiles hs'
  refine ⟨image', by rw [hfiles', hname], ?_⟩
  by_cases hcompacts : s.table.CompactsNext
  · rw [hcompacted hcompacts]
    exact DetsImage.lookup_compacted order s'.table.cache
  · intro k
    rw [hlog hcompacts, hcache]
    by_cases hopen : s.table.logOpen = true
    · rw [if_pos hopen, DetsImage.lookup_push_delete]
      exact lookup_erase_congr hlookup key k
    · rcases hlogged with hyes | habsent | hyes
      · exact absurd hyes hcompacts
      · rw [if_neg hopen, lookup_erase_absent habsent, hlookup]
      · exact absurd hyes hopen

theorem InSync.step {s s' : DetsRun} {op : DetsOp} (h : s.InSync serde)
    (hlogged : s.Logged op) (hs' : s.step serde op = .ok s') : s'.InSync serde := by
  cases op with
  | put order key value caller => exact h.put hlogged hs'
  | deleteKey order key caller => exact h.deleteKey hlogged hs'
  | compact order =>
      obtain ⟨image, hfiles, _⟩ := h
      obtain ⟨htable, hfiles'⟩ := step_compact hfiles hs'
      refine ⟨.compacted order s.table.cache, by rw [hfiles', htable], ?_⟩
      rw [htable]
      exact DetsImage.lookup_compacted order s.table.cache
  | close =>
      obtain rfl : { s with table := s.table.close } = s' := Except.ok.inj hs'
      exact h
  | reopen config =>
      obtain ⟨image, hfiles, _⟩ := h
      obtain ⟨hcache, hname, hdir⟩ := step_reopen hfiles hs'
      refine ⟨image, by rw [hdir, hname, hfiles], ?_⟩
      intro k
      rw [hcache]

/-- A write that does not reach the files leaves them with the old value. -/
theorem InSync.not_durable {s s' : DetsRun} {op : DetsOp} (h : s.InSync serde)
    (hmiss : ¬ s.Logged op) (hs' : s.step serde op = .ok s') : ¬ s'.Durable serde := by
  obtain ⟨image, hfiles, hlookup⟩ := h
  cases op with
  | put order key value caller =>
      simp only [Logged, not_or, not_and, not_not] at hmiss
      obtain ⟨hcompacts, hsame, hnull⟩ := hmiss
      obtain ⟨hcache, hname, image', hfiles', _, hlog⟩ := step_put hfiles hs'
      rw [Durable, hname, hfiles', reopens_files]
      intro hall
      apply hsame
      have hkey := hall key
      rw [hcache, AList.lookup_insert, hlog hcompacts] at hkey
      by_cases hopen : s.table.logOpen = true
      · rw [if_pos hopen, DetsImage.lookup_push_put, if_pos (hnull hopen)] at hkey
        rw [← hlookup, hkey]
      · rw [if_neg hopen] at hkey
        rw [← hlookup, hkey]
  | deleteKey order key caller =>
      simp only [Logged, not_or, not_not] at hmiss
      obtain ⟨hcompacts, hpresent, hclosed⟩ := hmiss
      obtain ⟨hcache, hname, image', hfiles', _, hlog⟩ := step_deleteKey hfiles hs'
      rw [Durable, hname, hfiles', reopens_files]
      intro hall
      have hkey := hall key
      rw [hcache, AList.lookup_erase, hlog hcompacts, if_neg hclosed, hlookup] at hkey
      exact absurd hpresent (AList.lookup_eq_none.mp hkey)
  | compact order => exact absurd trivial hmiss
  | close => exact absurd trivial hmiss
  | reopen config => exact absurd trivial hmiss

/-! ## Runs -/

theorem start_eq (name : String) (config : DetsConfig) :
    start serde name config = .ok
      ⟨.opened name config ∅, DetsTable.files serde name .empty⟩ := by
  simp [start, DetsTable.open_empty, bind, Except.bind]

theorem run_singleton (name : String) (config : DetsConfig) (op : DetsOp) :
    run serde name config [op] =
      step serde ⟨.opened name config ∅, DetsTable.files serde name .empty⟩ op := by
  simp only [run, start_eq, bind, Except.bind, List.foldlM_cons, List.foldlM_nil]
  cases step serde ⟨.opened name config ∅, DetsTable.files serde name .empty⟩ op <;> rfl

theorem inSync_start (name : String) (config : DetsConfig) :
    InSync serde ⟨.opened name config ∅, DetsTable.files serde name .empty⟩ :=
  ⟨.empty, rfl, fun _ => rfl⟩

variable (serde)

/-- Over every run of calls that return `Ok`, the table is durable at every point
exactly when each write compacts the table, is logged with a value that is read
back, or changes nothing. -/
theorem durable_iff_logged (name : String) (config : DetsConfig) (ops : List DetsOp) :
    (∀ pre, pre <+: ops → ∀ s, run serde name config pre = .ok s → s.Durable serde) ↔
    ∀ pre op, pre ++ [op] <+: ops → ∀ s s', run serde name config pre = .ok s →
      s.step serde op = .ok s' → s.Logged op := by
  have hiff := GuardedRun.throughoutOk_iff_guardedOk Logged (Durable serde)
    (inSync_start name config)
    (fun _ _ _ h hlogged hs' => h.step hlogged hs') (fun _ h => h.durable)
    (fun _ _ _ h hmiss hs' => h.not_durable hmiss hs') ops
  simp only [run, start_eq]
  exact hiff

/-- A `null` is put, and the reopened table does not know the key. -/
theorem put_null_not_durable :
    ∃ s, run .compact "t" ⟨.public, 1, none, 100, 100⟩ [.put .latestFirst "k" .null 1] =
        .ok s ∧
      s.table.cache.lookup "k" = some .null ∧
      (∃ table dir', DetsTable.open .compact "t" ⟨.public, 1, none, 100, 100⟩ s.dir =
        .ok (table, dir') ∧ table.cache.lookup "k" = none) ∧
      ¬ s.Durable .compact := by
  have hstep : step .compact
      ⟨.opened "t" ⟨.public, 1, none, 100, 100⟩ ∅, DetsTable.files .compact "t" .empty⟩
      (.put .latestFirst "k" .null 1) =
      .ok ⟨{ DetsTable.opened "t" ⟨.public, 1, none, 100, 100⟩ (AList.insert "k" .null ∅)
          with dirtyCount := 1 },
        DetsTable.files .compact "t" (.push .empty ⟨"put", "k", some .null⟩)⟩ := by
    have hlog := DetsTable.appendLog_files .compact
      (.opened "t" ⟨.public, 1, none, 100, 100⟩ ∅) .empty ⟨"put", "k", some .null⟩
    simp only [DetsTable.opened] at hlog ⊢
    simp [step, DetsTable.put, DetsTable.checkWrite, hlog, DetsTable.finishWrite, bind,
      Except.bind]
  have hlost : (DetsImage.push .empty ⟨"put", "k", some .null⟩).cache.lookup "k" = none := by
    rw [DetsImage.lookup_push_put, if_pos rfl]
    rfl
  have hrun := @run_singleton .compact "t" ⟨.public, 1, none, 100, 100⟩
    (.put .latestFirst "k" .null 1)
  refine ⟨_, hrun.trans hstep, ?_, ?_, ?_⟩
  · rfl
  · exact ⟨_, _, DetsTable.open_files _ _ _ _, hlost⟩
  · intro hdurable
    have hall := (reopens_files "t" _ _).mp hdurable
    have hkept : (none : Option Json) = some .null := hlost.symm.trans (hall "k")
    exact absurd hkept (by simp)

end DetsRun

end Zeptobeam
