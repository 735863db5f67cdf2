/-
The intensity of restarts.  As long as the intensity check counts below `2 ^ 32`, a
supervisor makes no more rounds in a window than it may, and it shuts down, for good, at
the first exit that would be one too many.
-/
import Zeptobeam.SupervisorRounds
import Zeptobeam.Lib.SlidingWindow

namespace Zeptobeam

namespace Supervisor

variable {B S H : Type}

open SlidingWindow

/-! ## The log -/

/-- The times of the rounds in a log. -/
def roundTimes (log : List (SupervisorEvent B)) : List Nat :=
  log.filterMap fun event => match event with
    | .round now _ _ => some now
    | _ => none

theorem roundTimes_append (log events : List (SupervisorEvent B)) :
    roundTimes (log ++ events) = roundTimes log ++ roundTimes events :=
  List.filterMap_append

@[simp]
theorem roundTimes_restartEvents (pairs : List (RunningChild B × RunningChild B)) :
    roundTimes (restartEvents pairs) = [] := by
  apply List.filterMap_eq_nil_iff.mpr
  intro event hevent
  obtain ⟨pair, _, rfl⟩ := List.mem_map.mp hevent
  rfl

/-- How many rounds count when another is made. -/
def roundCount (window now : Nat) (log : List (SupervisorEvent B)) : Nat :=
  (within window now (roundTimes log ++ [now])).length

/-- A log as it should be: an exit that asks for a restart gets a round while there is one
left, and else the supervisor shuts down; then the log is closed. -/
inductive Disciplined (window max : Nat) : List (SupervisorEvent B) → Bool → Prop where
  | nil : Disciplined window max [] false
  | dropped {log : List (SupervisorEvent B)} (h : Disciplined window max log false)
      (child : RunningChild B) (reason : Reason)
      (hshould : child.spec.restart.shouldRestart reason = false) :
      Disciplined window max (log ++ [.exited child reason]) false
  | exceeded {log : List (SupervisorEvent B)} (h : Disciplined window max log false)
      (child : RunningChild B) (reason : Reason) (now : Nat)
      (hmore : max < roundCount window now log) :
      Disciplined window max (log ++ [.exited child reason, .shutDown now]) true
  | round {log : List (SupervisorEvent B)} (h : Disciplined window max log false)
      (child : RunningChild B) (reason : Reason) (now : Nat) (ended : List AgentPid)
      (relations : AgentPid → Option Relations)
      (pairs : List (RunningChild B × RunningChild B))
      (hwithin : roundCount window now log ≤ max) :
      Disciplined window max (log ++ [.exited child reason,
        .round now ended relations] ++ restartEvents pairs) false

/-- What is known of a supervisor while exits are reported to it. -/
structure Intense (sup : Supervisor B) : Prop where
  clock : ∀ k, sup.clock k ≤ sup.clock (k + 1)
  disciplined : Disciplined sup.window sup.maxRestarts sup.log sup.shutdown
  bounded : Bounded sup.window sup.maxRestarts (roundTimes sup.log)
  stands : sup.shutdown = false →
    Stands sup.window (roundTimes sup.log) sup.restartTimestamps (sup.clock 0)
  timestamps : sup.shutdown = false → sup.restartTimestamps.length ≤ sup.maxRestarts

/-- If the exit asks for a round, the check counts no more entries than a `u32` can. -/
def Countable (sup : Supervisor B) (pid : AgentPid) (reason : Reason) : Prop :=
  (∃ i child, sup.Restarts pid reason i child) →
    sup.maxRestarts + 1 < 2 ^ 32 ∨ sup.retained.length < 2 ^ 32

/-- What the check keeps is what counts of the rounds, and this one. -/
theorem Intense.retained {sup : Supervisor B} (h : Intense sup)
    (hworking : sup.shutdown = false) :
    sup.retained = within sup.window (sup.clock 0) (roundTimes sup.log ++ [sup.clock 0]) :=
  (h.stands hworking).counts

/-- The check is right where it can count. -/
theorem Intense.exceeds_iff {sup : Supervisor B} (h : Intense sup)
    {pid : AgentPid} {reason : Reason} {i : Nat} {child : RunningChild B}
    (hrestarts : sup.Restarts pid reason i child) (hcountable : sup.Countable pid reason) :
    sup.exceedsMaxRestarts.1 = true ↔
      sup.maxRestarts < roundCount sup.window (sup.clock 0) sup.log := by
  have hworking := hrestarts.working
  have hlength : sup.retained.length < 2 ^ 32 := by
    rcases hcountable ⟨i, child, hrestarts⟩ with hsmall | hless
    · have hfilter : sup.retained.length ≤ (sup.restartTimestamps ++ [sup.clock 0]).length :=
        List.length_filter_le _ _
      have hbudget := h.timestamps hworking
      rw [List.length_append, List.length_singleton] at hfilter
      omega
    · exact hless
  rw [exceedsMaxRestarts, decide_eq_true_eq, Nat.mod_eq_of_lt hlength, h.retained hworking]
  rfl

theorem Intense.handled {agents : BehaviorCode (Supervised B S H)}
    {terminate : AgentScheduler (Supervised B S H) → AgentPid → Reason →
      Option (AgentScheduler (Supervised B S H))}
    {sup sup' : Supervisor B} {pid : AgentPid} {reason : Reason}
    {relations : AgentPid → Option Relations} {s s' : AgentScheduler (Supervised B S H)}
    (h : Intense sup) (hcountable : sup.Countable pid reason)
    (hhandled : Handled agents terminate sup pid reason relations s sup' s') :
    Intense sup' := by
  have hlater : ∀ k, sup.exceedsMaxRestarts.2.clock k ≤ sup.exceedsMaxRestarts.2.clock (k + 1) :=
    fun k => h.clock (k + 1)
  cases hhandled with
  | idle hidle => exact h
  | @dropped i child hfinds hshould =>
      have hworking := hfinds.working
      have htimes : roundTimes (sup.log ++ [.exited child reason]) = roundTimes sup.log := by
        rw [roundTimes_append]
        exact List.append_nil _
      have hdisciplined := h.disciplined
      rw [hworking] at hdisciplined
      refine ⟨h.clock, ?_, ?_, ?_, h.timestamps⟩
      · exact hworking.symm ▸ hdisciplined.dropped child reason hshould
      · rw [htimes]
        exact h.bounded
      · rw [htimes]
        exact h.stands
  | @exceeded i child hrestarts hexceeds =>
      have hworking := hrestarts.working
      have htimes : roundTimes (sup.log ++ [.exited child reason, .shutDown (sup.clock 0)]) =
          roundTimes sup.log := by
        rw [roundTimes_append]
        exact List.append_nil _
      have hdisciplined := h.disciplined
      rw [hworking] at hdisciplined
      refine ⟨hlater, ?_, ?_, fun hnot => by contradiction, fun hnot => by contradiction⟩
      · exact hdisciplined.exceeded child reason _
          ((h.exceeds_iff hrestarts hcountable).mp hexceeds)
      · rw [htimes]
        exact h.bounded
  | @round i child hrestarts hwithin ended _ hended hdone =>
      have hworking := hrestarts.working
      have hbudget := hdone.budget
      have hcount : roundCount sup.window (sup.clock 0) sup.log ≤ sup.maxRestarts := by
        apply Nat.le_of_not_lt
        rw [← h.exceeds_iff hrestarts hcountable, hwithin]
        exact Bool.false_ne_true
      have hwindow : sup'.window = sup.window := congrArg (· * 10 ^ 9) hbudget.maxSeconds
      have hmax : sup'.maxRestarts = sup.maxRestarts := hbudget.maxRestarts
      have htimes : roundTimes sup'.log = roundTimes sup.log ++ [sup.clock 0] := by
        rw [hdone.log, roundTimes_append, roundTimes_append, roundTimes_restartEvents,
          List.append_nil]
        rfl
      have hstamps : sup'.restartTimestamps =
          within sup.window (sup.clock 0) (sup.restartTimestamps ++ [sup.clock 0]) :=
        hbudget.restartTimestamps
      have hopen : sup'.shutdown = false := hbudget.shutdown.trans hworking
      have hdisciplined := h.disciplined
      rw [hworking] at hdisciplined
      have hclock : sup'.clock = fun k => sup.clock (k + 1) := hbudget.clock
      refine ⟨?_, ?_, ?_, ?_, ?_⟩
      · rw [hclock]
        exact hlater
      · rw [hdone.log, hwindow, hmax, hopen]
        exact hdisciplined.round child reason _ _ _ _ hcount
      · rw [htimes, hwindow, hmax]
        exact h.bounded.record hcount
      · intro _
        rw [htimes, hwindow, hstamps, hclock]
        exact ((h.stands hworking).record).later (h.clock 0)
      · intro _
        rw [hstamps, hmax, (h.stands hworking).counts]
        exact hcount

/-- A supervisor that was just started has made no round. -/
theorem intense_of_start {agents : BehaviorCode (Supervised B S H)}
    {spec : SupervisorSpec B} {clock : Nat → Nat} (hclock : ∀ k, clock k ≤ clock (k + 1))
    {s s' : AgentScheduler (Supervised B S H)} {sup : Supervisor B}
    (hstart : start agents s spec clock = (.ok sup, s')) : Intense sup := by
  obtain ⟨children, _, rfl⟩ := of_start hstart
  exact ⟨hclock, .nil, .nil _ _, fun _ => .refl _ _ _, fun _ => Nat.zero_le _⟩

/-- The log is closed by a shutdown. -/
theorem Disciplined.shutDown_last {window max : Nat} {log : List (SupervisorEvent B)}
    {closed : Bool} (h : Disciplined window max log closed) :
    (closed = false → ∀ now, .shutDown now ∉ log) ∧
      ∀ before now after, log = before ++ .shutDown now :: after → after = [] := by
  have hopen : ∀ {log : List (SupervisorEvent B)}, (∀ now, .shutDown now ∉ log) →
      ∀ before now after, log = before ++ .shutDown now :: after → after = [] := by
    intro log hnone before now after hlog
    have hmem : .shutDown now ∈ log := by
      rw [hlog]
      exact List.mem_append_right _ List.mem_cons_self
    exact absurd hmem (hnone now)
  induction h with
  | nil => exact ⟨fun _ now => List.not_mem_nil, hopen fun now => List.not_mem_nil⟩
  | @dropped log _ child reason _ ih =>
      have hnone : ∀ now, .shutDown now ∉ log ++ [.exited child reason] := by
        intro now hmem
        rcases List.mem_append.mp hmem with hmem | hmem
        · exact ih.1 rfl now hmem
        · simp at hmem
      exact ⟨fun _ => hnone, hopen hnone⟩
  | @exceeded log _ child reason now _ ih =>
      refine ⟨fun hnot => by contradiction, ?_⟩
      intro before later after hlog
      by_contra hafter
      -- a shutdown before the last entry would lie in the open log
      have hmem : .shutDown later ∈ log ++ [.exited child reason] := by
        have hdrop := congrArg List.dropLast hlog
        rw [List.dropLast_append_of_ne_nil (by simp),
          List.dropLast_append_of_ne_nil (List.cons_ne_nil _ _),
          List.dropLast_cons_of_ne_nil hafter, List.dropLast_cons_cons,
          List.dropLast_singleton] at hdrop
        rw [hdrop]
        exact List.mem_append_right _ List.mem_cons_self
      rcases List.mem_append.mp hmem with hmem | hmem
      · exact ih.1 rfl later hmem
      · simp at hmem
  | @round log _ child reason now ended relations pairs _ ih =>
      have hnone : ∀ later, .shutDown later ∉ log ++ [.exited child reason,
          .round now ended relations] ++ restartEvents pairs := by
        intro later hmem
        rcases List.mem_append.mp hmem with hmem | hmem
        · rcases List.mem_append.mp hmem with hmem | hmem
          · exact ih.1 rfl later hmem
          · simp at hmem
        · obtain ⟨pair, _, heq⟩ := List.mem_map.mp hmem
          simp at heq
      exact ⟨fun _ => hnone, hopen hnone⟩

theorem intense_of_exitRun {agents : BehaviorCode (Supervised B S H)}
    {spec : SupervisorSpec B} {clock : Nat → Nat} (hclock : ∀ k, clock k ≤ clock (k + 1))
    {sup : Supervisor B} {nextPid : AgentPid}
    (h : ExitRun agents spec clock Countable sup nextPid) : Intense sup := by
  induction h with
  | started s hstart => exact intense_of_start hclock hstart
  | exit h fuel s pid reason hmeets hlater hrun ih => exact ih.handled hmeets (handled_of_runProg hrun)

/-- The limits stay those of the spec. -/
theorem limits_of_exitRun {agents : BehaviorCode (Supervised B S H)}
    {spec : SupervisorSpec B} {clock : Nat → Nat}
    {Meets : Supervisor B → AgentPid → Reason → Prop} {sup : Supervisor B}
    {nextPid : AgentPid} (h : ExitRun agents spec clock Meets sup nextPid) :
    sup.maxRestarts = spec.maxRestarts ∧ sup.maxSeconds = spec.maxSeconds := by
  induction h with
  | started s hstart =>
      obtain ⟨children, _, rfl⟩ := of_start hstart
      exact ⟨rfl, rfl⟩
  | exit h fuel s pid reason hmeets hlater hrun ih =>
      cases handled_of_runProg hrun with
      | idle => exact ih
      | dropped => exact ih
      | exceeded => exact ih
      | round hrestarts hwithin hended hdone =>
          exact ⟨hdone.budget.maxRestarts.trans ih.1, hdone.budget.maxSeconds.trans ih.2⟩

/-- In every sequence of exits at which the check can count, with a clock that does not run
backwards: no window has more rounds than allowed, the supervisor shuts down at the first
exit that would be one too many, and after that it starts nobody. -/
theorem restart_intensity {agents : BehaviorCode (Supervised B S H)}
    {spec : SupervisorSpec B} {clock : Nat → Nat} (hclock : ∀ k, clock k ≤ clock (k + 1))
    {sup : Supervisor B} {nextPid : AgentPid}
    (h : ExitRun agents spec clock Countable sup nextPid) :
    Bounded (spec.maxSeconds * 10 ^ 9) spec.maxRestarts (roundTimes sup.log) ∧
      Disciplined (spec.maxSeconds * 10 ^ 9) spec.maxRestarts sup.log sup.shutdown ∧
      ∀ before now after, sup.log = before ++ .shutDown now :: after → after = [] := by
  have hintense := intense_of_exitRun hclock h
  obtain ⟨hmax, hseconds⟩ := limits_of_exitRun h
  have hwindow : sup.window = spec.maxSeconds * 10 ^ 9 := congrArg (· * 10 ^ 9) hseconds
  rw [← hmax, ← hwindow]
  exact ⟨hintense.bounded, hintense.disciplined, hintense.disciplined.shutDown_last.2⟩

/-! ## One child that keeps dying -/

/-- A permanent child alone under a supervisor. -/
def lonelySpec (maxRestarts : Nat) : SupervisorSpec Unit :=
  { strategy := .oneForOne, maxRestarts, maxSeconds := 1
    children := [⟨"a", (), .null, .permanent, .normal⟩] }

/-- With one round allowed, the second exit is one too many. -/
theorem restart_intensity_twice :
    ∃ sup nextPid, ExitRun plainAgents (lonelySpec 1) (fun k => k) Countable sup nextPid ∧
      sup.shutdown = true ∧ roundTimes sup.log = [0] ∧
      Bounded (1 * 10 ^ 9) 1 (roundTimes sup.log) := by
  have hcountable : ∀ (sup : Supervisor Unit) (pid : AgentPid) (reason : Reason),
      sup.maxRestarts = 1 → sup.Countable pid reason := by
    intro sup pid reason hmax _
    left
    rw [hmax]
    decide
  have hstart : ExitRun plainAgents (lonelySpec 1) (fun k => k) Countable _ _ :=
    .started (.new none none false 1 1) rfl
  have hfirst := hstart.exit 0 (.new none none false 2 1) 1 .shutdown
    (hcountable _ _ _ rfl) (by decide) rfl
  have hsecond := hfirst.exit 0 (.new none none false 3 1) 2 .shutdown
    (hcountable _ _ _ rfl) (by decide) rfl
  exact ⟨_, _, hsecond, rfl, rfl, (restart_intensity Nat.le_succ hsecond).1⟩

/-- What is left of it after each exit. -/
structure Lonely (k : Nat) (sup : Supervisor Unit) : Prop where
  strategy : sup.strategy = .oneForOne
  maxRestarts : sup.maxRestarts = 2 ^ 32 - 1
  working : sup.shutdown = false
  clock : sup.clock = fun _ => 0
  children : ∃ pid, sup.children = [⟨"a", pid, "a", (), .null, .permanent, .normal⟩]
  times : roundTimes sup.log = List.replicate k 0

/-- It has one round more, however many there were: the cast never exceeds the largest
`u32`. -/
theorem Lonely.handled {terminate : AgentScheduler (Supervised Unit Unit Unit) → AgentPid →
      Reason → Option (AgentScheduler (Supervised Unit Unit Unit))}
    {k : Nat} {sup sup' : Supervisor Unit} (h : Lonely k sup) {pid : AgentPid}
    {reason : Reason} {relations : AgentPid → Option Relations}
    {s s' : AgentScheduler (Supervised Unit Unit Unit)}
    (hpid : ∀ child ∈ sup.children, child.pid = pid)
    (hhandled : Handled plainAgents terminate sup pid reason relations s sup' s') :
    Lonely (k + 1) sup' := by
  obtain ⟨last, hchildren⟩ := h.children
  have honly : ∀ {i : Nat} {child : RunningChild Unit}, sup.children[i]? = some child →
      i = 0 ∧ child = ⟨"a", last, "a", (), .null, .permanent, .normal⟩ := by
    intro i child hfound
    rw [hchildren] at hfound
    cases i with
    | zero => exact ⟨rfl, (Option.some.inj hfound).symm⟩
    | succ i => contradiction
  cases hhandled with
  | idle hidle =>
      rcases hidle with hshutdown | hnone
      · rw [h.working] at hshutdown
        contradiction
      · have hmem : ⟨"a", last, "a", (), .null, .permanent, .normal⟩ ∈ sup.children := by
          rw [hchildren]
          exact List.mem_cons_self
        exact absurd (hpid _ hmem) (hnone _ hmem)
  | dropped hfinds hshould =>
      obtain ⟨_, rfl⟩ := honly hfinds.found
      contradiction
  | exceeded hrestarts hexceeds =>
      rw [exceedsMaxRestarts, decide_eq_true_eq, h.maxRestarts] at hexceeds
      have hless : sup.retained.length % 2 ^ 32 < 2 ^ 32 := Nat.mod_lt _ (by decide)
      exact absurd hexceeds (Nat.not_lt.mpr (Nat.le_sub_one_of_lt hless))
  | @round i child hrestarts hwithin ended _ hended hdone =>
      obtain ⟨rfl, hchild⟩ := honly hrestarts.found
      have hbudget := hdone.budget
      have hkept : sup.keptChildren 0 = [] := by
        rw [keptChildren, h.strategy, hchildren]
        rfl
      refine ⟨hbudget.strategy.trans h.strategy, hbudget.maxRestarts.trans h.maxRestarts,
        hbudget.shutdown.trans h.working, ?_, ?_, ?_⟩
      · rw [hbudget.clock]
        exact congrArg (fun clock k => clock (k + 1)) h.clock
      · have hperm := hdone.children
        rw [hkept, restartees, h.strategy, respawnAll] at hperm
        rcases spawnOf_cases plainAgents ended child.spec with ⟨_, hinit, _⟩ |
          ⟨running, next, _, hspawn, hstarted⟩
        · cases hinit
        · rw [hspawn] at hperm
          refine ⟨ended.nextPid, ?_⟩
          rw [hstarted.running, hchild] at hperm
          exact List.perm_singleton.mp hperm
      · rw [hdone.log, roundTimes_append, roundTimes_append, roundTimes_restartEvents,
          List.append_nil, h.times, h.clock, List.replicate_succ']
        rfl

theorem lonely_runs (k : Nat) :
    ∃ sup nextPid, ExitRun (S := Unit) (H := Unit) plainAgents (lonelySpec (2 ^ 32 - 1))
      (fun _ => 0) (fun _ _ _ => True) sup nextPid ∧ Lonely k sup := by
  induction k with
  | zero =>
      refine ⟨_, _, .started (.new none none false 1 1) rfl, ?_⟩
      exact ⟨rfl, rfl, rfl, rfl, ⟨1, rfl⟩, rfl⟩
  | succ k ih =>
      obtain ⟨sup, nextPid, hrun, hlonely⟩ := ih
      obtain ⟨pid, hchildren⟩ := hlonely.children
      obtain ⟨sup', s', hexit⟩ := exists_runProg_of_oneForOne plainAgents
        (AgentScheduler.terminateProcess (code plainAgents) 0) hlonely.strategy pid .shutdown
        (AgentScheduler.relations (.new none none false nextPid 1))
        (.new none none false nextPid 1)
      refine ⟨sup', s'.nextPid, hrun.exit 0 _ _ _ trivial (Nat.le_refl _) hexit, ?_⟩
      apply hlonely.handled _ (handled_of_runProg hexit)
      intro child hchild
      rw [hchildren] at hchild
      rw [List.mem_singleton.mp hchild]

/-- With the largest `u32` as its limit a supervisor never shuts down, also after as many
rounds and one more in one instant. -/
theorem lonely_not_bounded :
    ¬ ∀ sup nextPid, ExitRun (S := Unit) (H := Unit) plainAgents (lonelySpec (2 ^ 32 - 1))
      (fun _ => 0) (fun _ _ _ => True) sup nextPid →
      Bounded (1 * 10 ^ 9) (2 ^ 32 - 1) (roundTimes sup.log) := by
  intro hbounded
  have hmost : ∀ k : Nat, k ≤ 2 ^ 32 - 1 := by
    intro k
    obtain ⟨sup, nextPid, hrun, hlonely⟩ := lonely_runs k
    have hwindow := hbounded sup nextPid hrun 0
    rwa [hlonely.times, inWindow, List.filter_replicate_of_pos (by decide),
      List.length_replicate] at hwindow
  exact absurd (hmost (2 ^ 32)) (by decide)

end Supervisor

end Zeptobeam
