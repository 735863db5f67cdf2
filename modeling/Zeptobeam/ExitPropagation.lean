/-
Exit propagation.  With no exit handlers, a termination is a sweep of the link graph:
it ends, removes what links reach through processes that do not trap exits, and tells
the trapping processes next to them.
-/
import Zeptobeam.SchedulerTermination
import Zeptobeam.Lib.Sweep

namespace Zeptobeam

namespace AgentScheduler

variable {T : AgentTypes}

/-! ## Link reachability -/

def Linked (s : AgentScheduler T) (p q : AgentPid) : Prop :=
  ∃ proc, s.lookup p = some proc ∧ q ∈ proc.links

def Traps (s : AgentScheduler T) (q : AgentPid) (trap : Bool) : Prop :=
  ∃ proc, s.lookup q = some proc ∧ proc.trapExit = trap

/-- From `pid` along links, through live processes that do not trap exits. -/
inductive ExitReaches (s : AgentScheduler T) (pid : AgentPid) : AgentPid → Prop where
  | here : ExitReaches s pid pid
  | along {p q : AgentPid} (h : ExitReaches s pid p) (hlink : s.Linked p q)
      (hfree : s.Traps q false) : ExitReaches s pid q

/-- The live processes that the termination of `pid` has to remove. -/
def Doomed (s : AgentScheduler T) (pid : AgentPid) (reason : Reason) (q : AgentPid) :
    Prop :=
  (s.lookup q).isSome ∧ (q = pid ∨ reason ≠ .normal ∧ s.ExitReaches pid q)

/-! ## The sweep behind a termination -/

def livePids (s : AgentScheduler T) : Finset AgentPid :=
  s.registry.processes.keys.toFinset

@[simp]
theorem mem_livePids {s : AgentScheduler T} {q : AgentPid} :
    q ∈ s.livePids ↔ (s.lookup q).isSome := by
  rw [livePids, List.mem_toFinset, lookup, AgentRegistry.lookup, AList.lookup_isSome]
  exact AList.mem_keys.symm

theorem card_livePids_le (s : AgentScheduler T) :
    s.livePids.card ≤ s.registry.count := by
  have hkeys := List.toFinset_card_le s.registry.processes.keys
  exact hkeys.trans (by simp [AgentRegistry.count, AList.keys, List.keys])

/-- Where the exit of `p` goes on to. -/
def passedOn (s : AgentScheduler T) (reason : Reason) (p : AgentPid) : List AgentPid :=
  if reason = .normal then []
  else ((s.kin p).elim [] Prod.fst).filter fun q => (s.kin q).any (!·.2)

theorem mem_passedOn {s : AgentScheduler T} {reason : Reason} {p q : AgentPid} :
    q ∈ s.passedOn reason p ↔ reason ≠ .normal ∧ s.Linked p q ∧ s.Traps q false := by
  unfold passedOn Linked Traps
  by_cases hnormal : reason = .normal
  · simp [hnormal]
  · simp only [if_neg hnormal, kin_eq_lookup]
    cases s.lookup p with
    | none => simp
    | some pproc =>
        rw [Option.map_some, Option.elim_some, List.mem_filter]
        cases s.lookup q with
        | none => simp
        | some qproc => simp [hnormal]

/-- Those to be removed are those the sweep reaches. -/
theorem reach_iff_doomed {s : AgentScheduler T} {pid : AgentPid} {reason : Reason}
    {q : AgentPid} :
    Sweep.Reach (s.passedOn reason) s.livePids pid q ↔ s.Doomed pid reason q := by
  constructor
  · intro hreach
    refine ⟨mem_livePids.mp hreach.mem, ?_⟩
    obtain ⟨_, hpath⟩ := hreach
    induction hpath with
    | refl => exact .inl rfl
    | @tail x y _ hstep ih =>
        obtain ⟨hreason, hlink, hfree⟩ := mem_passedOn.mp hstep.1
        right
        rcases ih with rfl | ⟨_, hreaches⟩
        · exact ⟨hreason, .along .here hlink hfree⟩
        · exact ⟨hreason, .along hreaches hlink hfree⟩
  · rintro ⟨hlive, rfl | ⟨hreason, hreaches⟩⟩
    · exact ⟨mem_livePids.mpr hlive, .refl⟩
    · induction hreaches with
      | here => exact ⟨mem_livePids.mpr hlive, .refl⟩
      | @along p q hreaches hlink hfree ih =>
          have hp : (s.lookup p).isSome := by
            obtain ⟨proc, hproc, _⟩ := hlink
            rw [hproc]
            rfl
          have hreach := ih hp
          exact ⟨hreach.1, hreach.2.tail
            ⟨mem_passedOn.mpr ⟨hreason, hlink, hfree⟩, mem_livePids.mpr hlive⟩⟩

/-- A live process that traps exits and is not the one terminated. -/
def Spared (s : AgentScheduler T) (root q : AgentPid) : Prop :=
  q ≠ root ∧ s.Traps q true

/-- A state on the way: who is alive has its old links, and the spared ones are alive. -/
structure Sweeping (start : AgentScheduler T) (root : AgentPid) (s : AgentScheduler T) :
    Prop where
  kin : ∀ q, (s.lookup q).isSome → s.kin q = start.kin q
  spared : ∀ q, start.Spared root q → (s.lookup q).isSome
  noHandlers : s.exitHandlers = []

/-- Everybody spared was told of the removed processes it is linked to. -/
def Told (start : AgentScheduler T) (root : AgentPid) (reason : Reason)
    (s s' : AgentScheduler T) : Prop :=
  ∃ events, s'.trace = s.trace ++ events ∧
    ∀ p, (s.lookup p).isSome → ¬ (s'.lookup p).isSome → ∀ q, start.Linked p q →
      start.Spared root q →
      ∃ delivered, .direct q (.system (.exit p reason)) delivered ∈ events

theorem Told.refl (start : AgentScheduler T) (root : AgentPid) (reason : Reason)
    (s : AgentScheduler T) : Told start root reason s s :=
  ⟨[], by simp, fun _ hlive hdead => absurd hlive hdead⟩

theorem Told.trans {start : AgentScheduler T} {root : AgentPid} {reason : Reason}
    {s s' s'' : AgentScheduler T} (h : Told start root reason s s')
    (h' : Told start root reason s' s'') : Told start root reason s s'' := by
  obtain ⟨events, htrace, htold⟩ := h
  obtain ⟨events', htrace', htold'⟩ := h'
  refine ⟨events ++ events', by rw [htrace', htrace, List.append_assoc], ?_⟩
  intro p hlive hdead q hlink hspared
  by_cases hmiddle : (s'.lookup p).isSome
  · obtain ⟨delivered, hmem⟩ := htold' p hmiddle hdead q hlink hspared
    exact ⟨delivered, List.mem_append_right _ hmem⟩
  · obtain ⟨delivered, hmem⟩ := htold p hlive hmiddle q hlink hspared
    exact ⟨delivered, List.mem_append_left _ hmem⟩

theorem not_spared_of_free {s : AgentScheduler T} {root q : AgentPid}
    (hfree : s.Traps q false) : ¬ s.Spared root q := by
  rintro ⟨_, other, hother, htrap⟩
  obtain ⟨proc, hproc, hnot⟩ := hfree
  cases hproc.symm.trans hother
  rw [hnot] at htrap
  contradiction

/-- Taking a process down is the first part of its sweep. -/
theorem Sweeping.takeDown {start s : AgentScheduler T} {root pid : AgentPid}
    (h : Sweeping start root s) (hfree : ¬ start.Spared root pid) (code : BehaviorCode T)
    (reason : Reason) (hlive : (s.lookup pid).isSome) :
    (s.takeDown code pid reason).1 =
        (start.passedOn reason pid).filter (· ∈ s.livePids.erase pid) ∧
      Sweeping start root (s.takeDown code pid reason).2 ∧
      (s.takeDown code pid reason).2.livePids = s.livePids.erase pid ∧
      Told start root reason s (s.takeDown code pid reason).2 := by
  obtain ⟨proc, hproc⟩ := Option.isSome_iff_exists.mp hlive
  obtain ⟨hcascade, hdown⟩ := takeDown_of_live code hproc reason
  have hkin : ∀ q, (s.lookup q).isSome → s.kin q = start.kin q := h.kin
  have hlives : ∀ q, ((s.takeDown code pid reason).2.lookup q).isSome ↔
      q ≠ pid ∧ (s.lookup q).isSome := by
    intro q
    rw [← isSome_kin, hdown.kin q, ← isSome_kin]
    by_cases hq : q = pid
    · simp [hq]
    · simp [hq]
  have hlinks : start.kin pid = some (proc.links, proc.trapExit) := by
    rw [← hkin pid hlive, kin_eq_lookup, hproc]
    rfl
  refine ⟨?_, ⟨?_, ?_, ?_⟩, ?_, ?_⟩
  · rw [hcascade, passedOn, hlinks]
    split
    · rfl
    · rw [Option.elim_some, List.filter_filter]
      apply List.filter_congr
      intro q _
      rw [Bool.eq_iff_iff]
      by_cases hq : (s.lookup q).isSome
      · simp [hkin q hq, hq]
      · have hnone : s.kin q = none := by
          rw [kin_eq_lookup, Option.not_isSome_iff_eq_none.mp hq]
          rfl
        simp [hnone, hq]
  · intro q hq
    obtain ⟨hne, hq⟩ := (hlives q).mp hq
    rw [hdown.kin q, if_neg hne, hkin q hq]
  · intro q hspared
    refine (hlives q).mpr ⟨?_, h.spared q hspared⟩
    rintro rfl
    exact hfree hspared
  · exact hdown.exitHandlers.trans h.noHandlers
  · ext q
    rw [mem_livePids, hlives q, Finset.mem_erase, mem_livePids]
  · obtain ⟨events, htrace, hexits⟩ := hdown.trace
    refine ⟨events, htrace, ?_⟩
    intro p hp hdead q hlink hspared
    obtain rfl : p = pid := by
      by_contra hne
      exact hdead ((hlives p).mpr ⟨hne, hp⟩)
    have hq := h.spared q hspared
    have hlinked : q ∈ proc.links := by
      obtain ⟨other, hother, hmem⟩ := hlink
      have hsame : start.kin p = some (other.links, other.trapExit) := by
        rw [kin_eq_lookup, hother]
        rfl
      rw [hlinks] at hsame
      simp only [Option.some.injEq, Prod.mk.injEq] at hsame
      exact hsame.1 ▸ hmem
    have htraps : (s.kin q).any (·.2) = true := by
      obtain ⟨_, other, hother, htrap⟩ := hspared
      rw [hkin q hq, kin_eq_lookup, hother]
      simpa using htrap
    have hne : q ≠ p := by
      rintro rfl
      exact hfree hspared
    exact hexits q hlinked hne htraps

/-- The termination does what the sweep does, by induction on the fuel. -/
theorem Sweeping.terminateProcess (code : AgentCode T) {reason : Reason} {fuel : Nat}
    {start s : AgentScheduler T} {root pid : AgentPid} {rest : Finset AgentPid}
    (h : Sweeping start root s) (hfree : ¬ start.Spared root pid)
    (hsweep : Sweep.sweep (start.passedOn reason) fuel s.livePids pid = some rest) :
    ∃ s', s.terminateProcess code fuel pid reason = some s' ∧ Sweeping start root s' ∧
      s'.livePids = rest ∧ Told start root reason s s' := by
  induction fuel generalizing s pid rest with
  | zero => contradiction
  | succ fuel ih =>
      have hcascades : ∀ {pids : List AgentPid} {s : AgentScheduler T} {rest : Finset AgentPid},
          Sweeping start root s → (∀ q ∈ pids, ¬ start.Spared root q) →
          pids.foldlM (Sweep.sweep (start.passedOn reason) fuel) s.livePids = some rest →
          ∃ s', pids.foldlM (fun s cascade =>
              AgentScheduler.terminateProcess code fuel s cascade reason) s = some s' ∧
            Sweeping start root s' ∧ s'.livePids = rest ∧ Told start root reason s s' := by
        intro pids
        induction pids with
        | nil =>
            intro s rest hs _ hfold
            obtain rfl : s.livePids = rest := by simpa using hfold
            exact ⟨s, rfl, hs, rfl, .refl start root reason s⟩
        | cons first others ihpids =>
            intro s rest hs hpids hfold
            rw [List.foldlM_cons, Option.bind_eq_bind, Option.bind_eq_some_iff] at hfold
            obtain ⟨middle, hfirst, hothers⟩ := hfold
            obtain ⟨s₁, hrun₁, hs₁, hlive₁, htold₁⟩ :=
              ih hs (hpids first List.mem_cons_self) hfirst
            obtain ⟨s₂, hrun₂, hs₂, hlive₂, htold₂⟩ := ihpids hs₁
              (fun q hq => hpids q (List.mem_cons_of_mem first hq)) (by rwa [hlive₁])
            refine ⟨s₂, ?_, hs₂, hlive₂, htold₁.trans htold₂⟩
            rw [List.foldlM_cons, hrun₁]
            exact hrun₂
      have hfinish : ∀ {middle : AgentScheduler T}, Sweeping start root middle →
          middle.livePids = rest → Told start root reason s middle →
          ∃ s', (do
              let s ← middle.runExitHandlers code (perform code.toBehaviorCode
                (AgentScheduler.terminateProcess code fuel)) pid reason
              some (s.finishTermination pid)) = some s' ∧
            Sweeping start root s' ∧ s'.livePids = rest ∧ Told start root reason s s' := by
        intro middle hmiddle hlive htold
        obtain ⟨bridge, pendingDestroys, metrics, hended⟩ :=
          finishTermination_cases middle pid
        refine ⟨middle.finishTermination pid, ?_, ?_, ?_, ?_⟩
        · rw [runExitHandlers, if_pos hmiddle.noHandlers]
          rfl
        · rw [hended]
          exact ⟨hmiddle.kin, hmiddle.spared, hmiddle.noHandlers⟩
        · rw [hended]
          exact hlive
        · rw [hended]
          exact htold
      unfold Sweep.sweep at hsweep
      unfold AgentScheduler.terminateProcess
      by_cases hlive : (s.lookup pid).isSome
      · rw [if_pos (mem_livePids.mpr hlive)] at hsweep
        obtain ⟨hcascade, hdown, hleft, htold⟩ :=
          h.takeDown hfree code.toBehaviorCode reason hlive
        generalize s.takeDown code.toBehaviorCode pid reason = taken at hcascade hdown hleft htold
        obtain ⟨pidsToCascade, down⟩ := taken
        dsimp only at hcascade hdown hleft htold ⊢
        rw [← hcascade, ← hleft] at hsweep
        have hpids : ∀ q ∈ pidsToCascade, ¬ start.Spared root q := by
          intro q hq
          rw [hcascade] at hq
          exact not_spared_of_free (mem_passedOn.mp (List.mem_of_mem_filter hq)).2.2
        obtain ⟨middle, hrun, hmiddle, hlast, htoldLast⟩ := hcascades hdown hpids hsweep
        obtain ⟨s', hs', hresult⟩ := hfinish hmiddle hlast (htold.trans htoldLast)
        refine ⟨s', ?_, hresult⟩
        rw [hrun]
        exact hs'
      · rw [if_neg (by rwa [mem_livePids])] at hsweep
        cases hsweep
        rw [takeDown_of_dead _ (Option.not_isSome_iff_eq_none.mp hlive)]
        have hmarked : Sweeping start root ((s.cancel pid).log
            (.terminating pid false s.handlersOut s.exitHandlers.isEmpty)) :=
          ⟨h.kin, h.spared, h.noHandlers⟩
        exact hfinish hmarked rfl ⟨_, rfl, fun _ hp hdead => absurd hp hdead⟩

/-- Without exit handlers a termination ends, removes exactly the doomed processes, and
hands an Exit message for each to the trapping processes linked to it. -/
theorem terminateProcess_removes_doomed (code : AgentCode T) (s : AgentScheduler T)
    (pid : AgentPid) (reason : Reason) (hhandlers : s.exitHandlers = []) (fuel : Nat)
    (hfuel : s.registry.count < fuel) :
    ∃ s', s.terminateProcess code fuel pid reason = some s' ∧
      (∀ q, (s'.lookup q).isSome ↔ (s.lookup q).isSome ∧ ¬ s.Doomed pid reason q) ∧
      ∀ p q, s.Doomed pid reason p → s.Linked p q → q ≠ pid → s.Traps q true →
        (s'.lookup q).isSome ∧ ∃ delivered,
          .direct q (.system (.exit p reason)) delivered ∈ s'.trace.drop s.trace.length := by
  have hstart : Sweeping s pid s := by
    refine ⟨fun _ _ => rfl, ?_, hhandlers⟩
    rintro q ⟨_, proc, hproc, _⟩
    rw [hproc]
    rfl
  have hroot : ¬ s.Spared pid pid := fun hspared => hspared.1 rfl
  obtain ⟨rest, hrest⟩ := Sweep.exists_sweep (s.passedOn reason)
    ((card_livePids_le s).trans_lt hfuel) pid
  obtain ⟨s', hs', hsweeping, hlive, events, htrace, htold⟩ :=
    hstart.terminateProcess code hroot hrest
  have hleft : ∀ q, (s'.lookup q).isSome ↔
      (s.lookup q).isSome ∧ ¬ s.Doomed pid reason q := by
    intro q
    rw [← mem_livePids, hlive, Sweep.mem_sweep hrest, reach_iff_doomed, mem_livePids]
  refine ⟨s', hs', hleft, ?_⟩
  intro p q hdoomed hlink hne htraps
  refine ⟨hsweeping.spared q ⟨hne, htraps⟩, ?_⟩
  have hdead : ¬ (s'.lookup p).isSome := fun hp => ((hleft p).mp hp).2 hdoomed
  rw [htrace, List.drop_left]
  exact htold p hdoomed.1 hdead q hlink ⟨hne, htraps⟩

theorem linked_of_kin {s : AgentScheduler T} {p q : AgentPid} {links : List AgentPid}
    {trap : Bool} (hkin : s.kin p = some (links, trap)) (hq : q ∈ links) : s.Linked p q := by
  rw [kin_eq_lookup, Option.map_eq_some_iff] at hkin
  obtain ⟨proc, hproc, heq⟩ := hkin
  obtain ⟨rfl, -⟩ := Prod.mk.inj heq
  exact ⟨proc, hproc, hq⟩

theorem traps_of_kin {s : AgentScheduler T} {q : AgentPid} {links : List AgentPid}
    {trap : Bool} (hkin : s.kin q = some (links, trap)) : s.Traps q trap := by
  rw [kin_eq_lookup, Option.map_eq_some_iff] at hkin
  obtain ⟨proc, hproc, heq⟩ := hkin
  exact ⟨proc, hproc, (Prod.mk.inj heq).2⟩

/-- A chain of links whose last process traps exits. -/
theorem terminateProcess_removes_doomed_chain :
    ∃ s s', run plainCode (new none none false 1 1)
        [(0, .call (.spawn () .null)), (0, .call (.spawn () .null)),
          (0, .call (.spawn () .null)), (0, .call (.link 1 2)), (0, .call (.link 2 3)),
          (0, .call (.setTrapExit 3 true))] = some s ∧
      s.terminateProcess plainCode 4 1 .shutdown = some s' ∧
      ¬ (s'.lookup 2).isSome ∧ (s'.lookup 3).isSome ∧
      ∃ delivered, .direct 3 (.system (.exit 2 .shutdown)) delivered ∈
        s'.trace.drop s.trace.length := by
  have hshape : (run plainCode (new none none false 1 1)
      [(0, .call (.spawn () .null)), (0, .call (.spawn () .null)),
        (0, .call (.spawn () .null)), (0, .call (.link 1 2)), (0, .call (.link 2 3)),
        (0, .call (.setTrapExit 3 true))]).map (fun s => (s.registry.count,
          s.exitHandlers.isEmpty, s.kin 1, s.kin 2, s.kin 3)) =
      some (3, true, some ([2], false), some ([1, 3], false), some ([2], true)) :=
    rfl
  obtain ⟨s, hrun, hs⟩ := Option.map_eq_some_iff.mp hshape
  obtain ⟨hcount, hempty, hfirst, hsecond, hthird⟩ : s.registry.count = 3 ∧
      s.exitHandlers.isEmpty = true ∧ s.kin 1 = some ([2], false) ∧
      s.kin 2 = some ([1, 3], false) ∧ s.kin 3 = some ([2], true) := by
    simpa only [Prod.mk.injEq] using hs
  obtain ⟨s', hs', hlives, htold⟩ := terminateProcess_removes_doomed plainCode s 1 .shutdown
    (List.isEmpty_iff.mp hempty) 4 (by omega)
  have hdoomed : s.Doomed 1 .shutdown 2 := by
    refine ⟨by rw [← isSome_kin, hsecond]; rfl, .inr ⟨by decide, ?_⟩⟩
    exact .along .here (linked_of_kin hfirst (by decide)) (traps_of_kin hsecond)
  have hnext := htold 2 3 hdoomed (linked_of_kin hsecond (by decide)) (by decide)
    (traps_of_kin hthird)
  exact ⟨s, s', hrun, hs', fun hlive => ((hlives 2).mp hlive).2 hdoomed, hnext⟩

end AgentScheduler

end Zeptobeam
