/-
The run queues with the counter of the source: which queue each pick is served from, while
processes are put in and change.
-/
import Mathlib.Data.List.Chain
import Zeptobeam.FileReader
import Zeptobeam.RunQueues

namespace Zeptobeam

namespace AgentScheduler

open GuardedRun

variable {T : AgentTypes}

/-- `next_runnable` with the counter a `usize` that wraps. -/
def nextRunnableWrapping (s : AgentScheduler T) : Option AgentPid × AgentScheduler T :=
  match s.queueHigh with
  | pid :: rest => (some pid, { s with queueHigh := rest })
  | [] =>
      if s.queueNormal ≠ [] then
        let s := { s with advantageCount := (s.advantageCount + 1) % 2 ^ 64 }
        if s.advantageCount < normalAdvantage ∨ s.queueLow = [] then s.popNormal
        else
          let s := { s with advantageCount := 0 }
          match s.queueLow with
          | pid :: rest => (some pid, { s with queueLow := rest })
          | [] => s.popNormal
      else s.popLow

/-- The counter is about to count, and at its last value. -/
def AtLast (s : AgentScheduler T) : Prop :=
  s.queueHigh = [] ∧ s.queueNormal ≠ [] ∧ s.advantageCount = 2 ^ 64 - 1

instance (s : AgentScheduler T) : Decidable s.AtLast :=
  inferInstanceAs (Decidable (_ ∧ _ ∧ _))

/-- `next_runnable`, which stops at the overflow in a debug build. -/
def nextRunnableIn (debug : Bool) (s : AgentScheduler T) :
    Except Panic (Option AgentPid × AgentScheduler T) :=
  if debug ∧ s.AtLast then .error .arithmeticOverflow else .ok s.nextRunnableWrapping

/-- What happens to the queues: a process is put in, the next one is picked, or the processes
themselves change. -/
inductive QueueOp (T : AgentTypes) where
  | enqueue (pid : AgentPid)
  | pick
  | processes (registry : AgentRegistry T)

/-- What was done, what came out, and the states before and after. -/
structure Turn (T : AgentTypes) where
  before : AgentScheduler T
  op : QueueOp T
  answer : Option AgentPid
  after : AgentScheduler T

def queueStep (debug : Bool) (s : AgentScheduler T) :
    QueueOp T → Except Panic (Option AgentPid × AgentScheduler T)
  | .enqueue pid => .ok (none, s.enqueue pid)
  | .pick => s.nextRunnableIn debug
  | .processes registry => .ok (none, { s with registry })

/-- The turns of a run, and the state after it. -/
def turns (debug : Bool) :
    AgentScheduler T → List (QueueOp T) → Except Panic (List (Turn T) × AgentScheduler T)
  | s, [] => .ok ([], s)
  | s, op :: rest => do
      let (answer, after) ← s.queueStep debug op
      let (later, last) ← turns debug after rest
      pure (⟨s, op, answer, after⟩ :: later, last)

namespace Turn

def isPick (turn : Turn T) : Bool :=
  match turn.op with
  | .pick => true
  | _ => false

/-- The queue that got shorter. -/
def shortened (turn : Turn T) : Option Priority :=
  if turn.after.queueHigh.length < turn.before.queueHigh.length then some .high
  else if turn.after.queueNormal.length < turn.before.queueNormal.length then some .normal
  else if turn.after.queueLow.length < turn.before.queueLow.length then some .low
  else none

/-- The pid that came out of a queue. -/
def served (priority : Priority) (turn : Turn T) : List AgentPid :=
  if turn.isPick ∧ turn.shortened = some priority then turn.answer.toList else []

/-- The pid that was put into a queue: the one of the process's own priority. -/
def queued (priority : Priority) (turn : Turn T) : List AgentPid :=
  match turn.op with
  | .enqueue pid =>
      if (turn.before.lookup pid).any (·.priority = priority) then [pid] else []
  | _ => []

/-- A pick that returns a process while the High queue is empty and the Low queue is not. -/
structure LowWaits (turn : Turn T) : Prop where
  high : turn.before.queueHigh = []
  low : turn.before.queueLow ≠ []
  returns : turn.answer ≠ none

end Turn

/-- Low gets one of any eight picks that it waits for, and each queue is served in the order
it was filled. -/
structure Fair (s : AgentScheduler T) (run : List (Turn T)) (last : AgentScheduler T) :
    Prop where
  low : ∀ window, window <:+: run.filter Turn.isPick → window.length = 8 →
    (∀ turn ∈ window, turn.LowWaits) → ∃ turn ∈ window, turn.shortened = some .low
  source : ∀ turn ∈ run, turn.isPick → (turn.answer.isSome ↔ turn.shortened.isSome)
  fifo : ∀ priority, s.queueOf priority ++ run.flatMap (Turn.queued priority) =
    run.flatMap (Turn.served priority) ++ last.queueOf priority

/-- No pick finds the counter at its last value. -/
def CounterFits (s : AgentScheduler T) : QueueOp T → Prop
  | .pick => ¬ s.AtLast
  | _ => True

/-- The turn of a release build, which never fails. -/
def turnWrapping (s : AgentScheduler T) (op : QueueOp T) : Turn T :=
  match op with
  | .enqueue pid => ⟨s, .enqueue pid, none, s.enqueue pid⟩
  | .pick => ⟨s, .pick, s.nextRunnableWrapping.1, s.nextRunnableWrapping.2⟩
  | .processes registry => ⟨s, .processes registry, none, { s with registry }⟩

def afterTurn (s : AgentScheduler T) (op : QueueOp T) : AgentScheduler T :=
  (s.turnWrapping op).after

def turnsWrapping : AgentScheduler T → List (QueueOp T) → List (Turn T)
  | _, [] => []
  | s, op :: rest => s.turnWrapping op :: turnsWrapping (s.afterTurn op) rest

/-! ## One turn -/

/-- Normal is served while it has its advantage, or while nobody waits at Low. -/
theorem nextRunnableWrapping_normal {s : AgentScheduler T} {pid : AgentPid}
    {rest : List AgentPid} (hhigh : s.queueHigh = []) (hnormal : s.queueNormal = pid :: rest)
    (hadvantage : (s.advantageCount + 1) % 2 ^ 64 < normalAdvantage ∨ s.queueLow = []) :
    s.nextRunnableWrapping = (some pid, { s with
      queueNormal := rest, advantageCount := (s.advantageCount + 1) % 2 ^ 64 }) := by
  have hready : s.queueNormal ≠ [] := by
    rw [hnormal]
    exact List.cons_ne_nil _ _
  unfold nextRunnableWrapping
  split
  · rename_i other others hother
    rw [hhigh] at hother
    contradiction
  · rw [if_pos hready]
    dsimp only
    rw [if_pos hadvantage, popNormal]
    simp only [hnormal, List.head?_cons, List.tail_cons]

/-- How the next process is picked. -/
theorem nextRunnableWrapping_cases (s : AgentScheduler T) :
    (∃ pid rest, s.queueHigh = pid :: rest ∧
      s.nextRunnableWrapping = (some pid, { s with queueHigh := rest })) ∨
    (∃ pid rest, s.queueHigh = [] ∧ s.queueNormal = pid :: rest ∧
      ((s.advantageCount + 1) % 2 ^ 64 < normalAdvantage ∨ s.queueLow = []) ∧
      s.nextRunnableWrapping = (some pid, { s with
        queueNormal := rest, advantageCount := (s.advantageCount + 1) % 2 ^ 64 })) ∨
    (∃ pid rest advantageCount, s.queueHigh = [] ∧ s.queueLow = pid :: rest ∧
      advantageCount ≤ s.advantageCount ∧
      s.nextRunnableWrapping = (some pid, { s with queueLow := rest, advantageCount })) ∨
    (s.queueHigh = [] ∧ s.queueNormal = [] ∧ s.queueLow = [] ∧
      s.nextRunnableWrapping = (none, s)) := by
  unfold nextRunnableWrapping
  split
  · rename_i pid rest hhigh
    exact .inl ⟨pid, rest, hhigh, rfl⟩
  · rename_i hhigh
    right
    by_cases hnormal : s.queueNormal = []
    · right
      rw [if_neg (by simpa using hnormal), popLow]
      cases hlow : s.queueLow with
      | nil =>
          refine .inr ⟨hhigh, hnormal, rfl, ?_⟩
          rw [List.head?_nil, List.tail_nil, ← hlow]
      | cons pid rest => exact .inl ⟨pid, rest, s.advantageCount, hhigh, rfl, Nat.le_refl _, rfl⟩
    · rw [if_pos hnormal]
      by_cases hadvantage : (s.advantageCount + 1) % 2 ^ 64 < normalAdvantage ∨ s.queueLow = []
      · left
        obtain ⟨pid, rest, hcons⟩ := List.exists_cons_of_ne_nil hnormal
        refine ⟨pid, rest, hhigh, hcons, hadvantage, ?_⟩
        dsimp only
        rw [if_pos hadvantage, popNormal]
        simp only [hcons, List.head?_cons, List.tail_cons]
      · right
        left
        dsimp only
        rw [if_neg hadvantage]
        cases hlow : s.queueLow with
        | nil => exact absurd (.inr hlow) hadvantage
        | cons pid rest => exact ⟨pid, rest, 0, hhigh, rfl, Nat.zero_le _, rfl⟩

variable {s : AgentScheduler T} {op : QueueOp T}

/-- How a pick ends: which queue it is served from, and what becomes of the counter. -/
theorem turnWrapping_pick_cases (s : AgentScheduler T) :
    (∃ pid priority, (s.turnWrapping .pick).answer = some pid ∧
      (s.turnWrapping .pick).shortened = some priority ∧
      (∀ other, s.queueOf other = (if other = priority then [pid] else []) ++
        (s.afterTurn .pick).queueOf other) ∧
      (priority = .normal → s.queueHigh = [] ∧ s.queueNormal ≠ [] ∧
        ((s.advantageCount + 1) % 2 ^ 64 < normalAdvantage ∨ s.queueLow = []) ∧
        (s.afterTurn .pick).advantageCount = (s.advantageCount + 1) % 2 ^ 64) ∧
      (priority = .high → s.queueHigh ≠ []) ∧
      (s.advantageCount < 2 ^ 64 → (s.afterTurn .pick).advantageCount < 2 ^ 64)) ∨
    ((s.turnWrapping .pick).answer = none ∧ (s.turnWrapping .pick).shortened = none ∧
      s.afterTurn .pick = s) := by
  unfold afterTurn turnWrapping
  rcases nextRunnableWrapping_cases s with
    ⟨pid, rest, hhigh, hpick⟩ | ⟨pid, rest, hhigh, hnormal, hadvantage, hpick⟩ |
    ⟨pid, rest, count, hhigh, hlow, hle, hpick⟩ | ⟨hhigh, hnormal, hlow, hpick⟩
  · left
    rw [hpick]
    refine ⟨pid, .high, rfl, if_pos ?_, ?_, nofun, fun _ => ?_, id⟩
    · simp [hhigh]
    · intro other
      cases other with
      | high => exact hhigh
      | normal => rfl
      | low => rfl
    · rw [hhigh]
      exact List.cons_ne_nil _ _
  · left
    rw [hpick]
    refine ⟨pid, .normal, rfl, ?_, ?_, fun _ => ⟨hhigh, ?_, hadvantage, rfl⟩, nofun, fun _ => ?_⟩
    · simp [Turn.shortened, hnormal]
    · intro other
      cases other with
      | high => rfl
      | normal => exact hnormal
      | low => rfl
    · rw [hnormal]
      exact List.cons_ne_nil _ _
    · exact Nat.mod_lt _ (by decide)
  · left
    rw [hpick]
    refine ⟨pid, .low, rfl, ?_, ?_, nofun, nofun, fun hword => Nat.lt_of_le_of_lt hle hword⟩
    · simp [Turn.shortened, hlow]
    · intro other
      cases other with
      | high => rfl
      | normal => rfl
      | low => exact hlow
  · right
    rw [hpick]
    refine ⟨rfl, ?_, rfl⟩
    simp [Turn.shortened]

theorem source_turnWrapping (s : AgentScheduler T) (op : QueueOp T)
    (hpick : (s.turnWrapping op).isPick) :
    (s.turnWrapping op).answer.isSome ↔ (s.turnWrapping op).shortened.isSome := by
  cases op with
  | enqueue pid => contradiction
  | processes registry => contradiction
  | pick =>
      rcases turnWrapping_pick_cases s with
        ⟨pid, priority, hanswer, hshortened, -⟩ | ⟨hanswer, hshortened, -⟩
      · rw [hanswer, hshortened]
        exact Iff.rfl
      · rw [hanswer, hshortened]
        exact Iff.rfl

/-- A turn takes from the front of a queue, or puts at its end. -/
theorem fifo_turnWrapping (s : AgentScheduler T) (op : QueueOp T) (priority : Priority) :
    s.queueOf priority ++ (s.turnWrapping op).queued priority =
      (s.turnWrapping op).served priority ++ (s.afterTurn op).queueOf priority := by
  cases op with
  | enqueue pid =>
      have hqueued : (s.turnWrapping (.enqueue pid)).queued priority =
          if (s.lookup pid).any (·.priority = priority) then [pid] else [] := rfl
      have hserved : (s.turnWrapping (.enqueue pid)).served priority = [] :=
        if_neg fun h => absurd h.1 Bool.false_ne_true
      have hafter : (s.afterTurn (.enqueue pid)).queueOf priority =
          if (s.lookup pid).any (·.priority = priority) then s.queueOf priority ++ [pid]
          else s.queueOf priority := by
        have henqueue := queueOf_enqueue s pid priority
        rw [footing, Option.any_map] at henqueue
        exact henqueue
      rw [hqueued, hserved, hafter, List.nil_append]
      split
      · rfl
      · exact List.append_nil _
  | processes registry =>
      have hserved : (s.turnWrapping (.processes registry)).served priority = [] :=
        if_neg fun h => absurd h.1 Bool.false_ne_true
      rw [hserved, List.nil_append]
      cases priority with
      | high => exact List.append_nil _
      | normal => exact List.append_nil _
      | low => exact List.append_nil _
  | pick =>
      have hqueued : (s.turnWrapping .pick).queued priority = [] := rfl
      rw [hqueued, List.append_nil, Turn.served]
      rcases turnWrapping_pick_cases s with
        ⟨pid, source, hanswer, hshortened, hqueues, -⟩ | ⟨hanswer, hshortened, hsame⟩
      · rw [hqueues priority, hanswer, hshortened]
        by_cases hsource : priority = source
        · subst hsource
          rw [if_pos rfl, if_pos ⟨rfl, rfl⟩, Option.toList_some]
        · rw [if_neg hsource, if_neg fun h => hsource (Option.some.inj h.2).symm]
      · rw [hanswer, hsame, Option.toList_none, ite_self, List.nil_append]

/-- A pick that leaves Low waiting counts, and the counter stays small. -/
theorem count_turnWrapping (hpick : (s.turnWrapping op).isPick) (hfits : CounterFits s op)
    (hword : s.advantageCount < 2 ^ 64) (hwaits : (s.turnWrapping op).LowWaits)
    (hlow : (s.turnWrapping op).shortened ≠ some .low) :
    (s.afterTurn op).advantageCount = s.advantageCount + 1 ∧
      (s.afterTurn op).advantageCount < normalAdvantage := by
  cases op with
  | enqueue pid => contradiction
  | processes registry => contradiction
  | pick =>
      rcases turnWrapping_pick_cases s with
        ⟨pid, priority, hanswer, hshortened, -, hnormal, hhigh, -⟩ | ⟨hanswer, -⟩
      · cases priority with
        | high => exact absurd hwaits.high (hhigh rfl)
        | low => exact absurd hshortened hlow
        | normal =>
            obtain ⟨hempty, hready, hadvantage, hcount⟩ := hnormal rfl
            have hbelow := hadvantage.resolve_right hwaits.low
            have hroom : s.advantageCount + 1 < 2 ^ 64 := by
              have hne : s.advantageCount ≠ 2 ^ 64 - 1 := fun hlast => hfits ⟨hempty, hready, hlast⟩
              omega
            rw [Nat.mod_eq_of_lt hroom] at hcount hbelow
            rw [hcount]
            exact ⟨rfl, hbelow⟩
      · exact absurd hanswer hwaits.returns

theorem count_other (hpick : ¬ (s.turnWrapping op).isPick) :
    (s.afterTurn op).advantageCount = s.advantageCount := by
  cases op with
  | pick => exact absurd rfl hpick
  | processes registry => rfl
  | enqueue pid =>
      obtain ⟨_, _, _, h⟩ := enqueue_cases s pid
      rw [afterTurn, turnWrapping, h]

theorem word_afterTurn (hword : s.advantageCount < 2 ^ 64) :
    (s.afterTurn op).advantageCount < 2 ^ 64 := by
  by_cases hpick : (s.turnWrapping op).isPick
  · cases op with
    | enqueue pid => contradiction
    | processes registry => contradiction
    | pick =>
        rcases turnWrapping_pick_cases s with ⟨_, _, _, _, _, _, _, hkeeps⟩ | ⟨_, _, hsame⟩
        · exact hkeeps hword
        · rwa [hsame]
  · rwa [count_other hpick]

/-! ## Runs -/

theorem fifo_turnsWrapping (s : AgentScheduler T) (ops : List (QueueOp T)) (priority : Priority) :
    s.queueOf priority ++ (s.turnsWrapping ops).flatMap (Turn.queued priority) =
      (s.turnsWrapping ops).flatMap (Turn.served priority) ++
        (ops.foldl afterTurn s).queueOf priority := by
  induction ops generalizing s with
  | nil => simp [turnsWrapping]
  | cons op rest ih =>
      simp only [turnsWrapping, List.flatMap_cons, List.foldl_cons]
      rw [← List.append_assoc, fifo_turnWrapping, List.append_assoc, ih, List.append_assoc]

/-- The picks of a run hand the counter on. -/
structure Handed (count : Nat) (picks : List (Turn T)) : Prop where
  chain : picks.IsChain fun turn next =>
    next.before.advantageCount = turn.after.advantageCount
  start : ∀ turn ∈ picks.head?, turn.before.advantageCount = count

theorem handed_turnsWrapping (s : AgentScheduler T) (ops : List (QueueOp T)) :
    Handed s.advantageCount ((s.turnsWrapping ops).filter Turn.isPick) := by
  induction ops generalizing s with
  | nil =>
      rw [turnsWrapping, List.filter_nil]
      exact ⟨.nil, fun turn hturn => by cases hturn⟩
  | cons op rest ih =>
      obtain ⟨hchain, hstart⟩ := ih (s.afterTurn op)
      rw [turnsWrapping]
      by_cases hpick : (s.turnWrapping op).isPick
      · rw [List.filter_cons_of_pos hpick]
        refine ⟨List.isChain_cons.mpr ⟨hstart, hchain⟩, fun turn hturn => ?_⟩
        cases hturn
        cases op <;> rfl
      · rw [List.filter_cons_of_neg hpick]
        refine ⟨hchain, fun turn hturn => ?_⟩
        rw [hstart turn hturn, count_other hpick]

/-- Where a turn of a run was made. -/
theorem mem_turnsWrapping (hword : s.advantageCount < 2 ^ 64) (ops : List (QueueOp T))
    (hguarded : Guarded afterTurn CounterFits s ops) {turn : Turn T}
    (hturn : turn ∈ s.turnsWrapping ops) :
    ∃ before op, before.advantageCount < 2 ^ 64 ∧ CounterFits before op ∧
      turn = before.turnWrapping op := by
  induction ops generalizing s with
  | nil => contradiction
  | cons op rest ih =>
      rcases List.mem_cons.mp hturn with rfl | hrest
      · exact ⟨s, op, hword, hguarded.head, rfl⟩
      · exact ih (word_afterTurn hword) hguarded.tail hrest

/-- Picks that each count bring the counter up by their number. -/
theorem length_le_count (turn : Turn T) (picks : List (Turn T))
    (hchain : (turn :: picks).IsChain fun turn next =>
      next.before.advantageCount = turn.after.advantageCount)
    (hcounts : ∀ pick ∈ turn :: picks,
      pick.after.advantageCount = pick.before.advantageCount + 1) :
    ∃ pick ∈ turn :: picks,
      pick.after.advantageCount = turn.before.advantageCount + (turn :: picks).length := by
  induction picks generalizing turn with
  | nil => exact ⟨turn, List.mem_cons_self, hcounts turn List.mem_cons_self⟩
  | cons next rest ih =>
      obtain ⟨hlink, hrest⟩ := List.isChain_cons_cons.mp hchain
      obtain ⟨pick, hpick, hcount⟩ := ih next hrest fun pick hpick =>
        hcounts pick (List.mem_cons_of_mem turn hpick)
      refine ⟨pick, List.mem_cons_of_mem turn hpick, ?_⟩
      rw [hcount, hlink, hcounts turn List.mem_cons_self]
      simp only [List.length_cons]
      omega

theorem low_turnsWrapping (hword : s.advantageCount < 2 ^ 64) (ops : List (QueueOp T))
    (hguarded : Guarded afterTurn CounterFits s ops) {window : List (Turn T)}
    (hwindow : window <:+: (s.turnsWrapping ops).filter Turn.isPick)
    (hlength : window.length = 8) (hwaits : ∀ turn ∈ window, turn.LowWaits) :
    ∃ turn ∈ window, turn.shortened = some .low := by
  by_contra hnone
  have hcounts : ∀ turn ∈ window, turn.after.advantageCount = turn.before.advantageCount + 1 ∧
      turn.after.advantageCount < normalAdvantage := by
    intro turn hturn
    obtain ⟨hmem, hpick⟩ := List.mem_filter.mp (hwindow.subset hturn)
    obtain ⟨before, op, hbefore, hfits, rfl⟩ := mem_turnsWrapping hword ops hguarded hmem
    have hcount := count_turnWrapping hpick hfits hbefore (hwaits _ hturn)
      fun hlow => hnone ⟨_, hturn, hlow⟩
    cases op <;> exact hcount
  cases window with
  | nil => contradiction
  | cons turn rest =>
      have hchain : (turn :: rest).IsChain fun turn next =>
          next.before.advantageCount = turn.after.advantageCount :=
        List.IsChain.infix (handed_turnsWrapping s ops).chain hwindow
      obtain ⟨pick, hpick, hcount⟩ := length_le_count turn rest hchain
        fun pick hpick => (hcounts pick hpick).1
      have hbelow := (hcounts pick hpick).2
      rw [hcount, hlength, normalAdvantage] at hbelow
      omega

theorem fair_turnsWrapping (hword : s.advantageCount < 2 ^ 64) (ops : List (QueueOp T))
    (hguarded : Guarded afterTurn CounterFits s ops) :
    Fair s (s.turnsWrapping ops) (ops.foldl afterTurn s) where
  low := fun _ hwindow hlength hwaits =>
    low_turnsWrapping hword ops hguarded hwindow hlength hwaits
  source := by
    intro turn hturn hpick
    obtain ⟨before, op, -, -, rfl⟩ := mem_turnsWrapping hword ops hguarded hturn
    exact source_turnWrapping before op hpick
  fifo := fun priority => fifo_turnsWrapping s ops priority

/-! ## Both builds -/

theorem queueStep_of_fits (debug : Bool) (hfits : debug → CounterFits s op) :
    s.queueStep debug op = .ok ((s.turnWrapping op).answer, s.afterTurn op) := by
  cases op with
  | enqueue pid => rfl
  | processes registry => rfl
  | pick => exact if_neg fun h => hfits h.1 h.2

/-- A release build always comes to an end, a debug build as long as the counter fits. -/
theorem turns_of_guarded (debug : Bool) (ops : List (QueueOp T))
    (hguarded : debug → Guarded afterTurn CounterFits s ops) :
    turns debug s ops = .ok (s.turnsWrapping ops, ops.foldl afterTurn s) := by
  induction ops generalizing s with
  | nil => rfl
  | cons op rest ih =>
      have hturn : (⟨s, op, (s.turnWrapping op).answer, s.afterTurn op⟩ : Turn T) =
          s.turnWrapping op := by
        cases op <;> rfl
      unfold turns
      simp only [queueStep_of_fits debug fun hdebug => (hguarded hdebug).head, bind, Except.bind,
        ih fun hdebug => (hguarded hdebug).tail, hturn]
      rfl

/-- A debug build that comes to an end met no overflow. -/
theorem guarded_of_turns (ops : List (QueueOp T)) {result : List (Turn T) × AgentScheduler T}
    (hrun : turns true s ops = .ok result) : Guarded afterTurn CounterFits s ops := by
  induction ops generalizing s result with
  | nil => exact .nil
  | cons op rest ih =>
      by_cases hfits : CounterFits s op
      · unfold turns at hrun
        simp only [queueStep_of_fits true fun _ => hfits, bind, Except.bind] at hrun
        cases hrest : turns true (s.afterTurn op) rest with
        | error panic =>
            rw [hrest] at hrun
            contradiction
        | ok later => exact .cons hfits (ih hrest)
      · cases op with
        | enqueue pid => exact absurd trivial hfits
        | processes registry => exact absurd trivial hfits
        | pick =>
            have hstop : s.queueStep true .pick = .error .arithmeticOverflow :=
              if_pos ⟨rfl, not_not.mp hfits⟩
            unfold turns at hrun
            rw [hstop] at hrun
            contradiction

/-- The queues are fair in both builds exactly if the counter never has to count beyond its
last value. -/
theorem fair_iff_counterFits (s : AgentScheduler T) (hword : s.advantageCount < 2 ^ 64)
    (ops : List (QueueOp T)) :
    (∀ debug, ∃ run last, turns debug s ops = .ok (run, last) ∧ Fair s run last) ↔
      Guarded afterTurn CounterFits s ops := by
  constructor
  · intro hfair
    obtain ⟨run, last, hrun, -⟩ := hfair true
    exact guarded_of_turns ops hrun
  · intro hguarded debug
    exact ⟨_, _, turns_of_guarded debug ops fun _ => hguarded, fair_turnsWrapping hword ops hguarded⟩

/-! ## The counter at its last value -/

def normalProcess : AgentProcess plainTypes := .started 1 () () 8

def lowProcess : AgentProcess plainTypes := { normalProcess with pid := 2, priority := .low }

/-- Nobody is queued, and the counter stands at some value. -/
def idleAt (advantageCount : Nat) : AgentScheduler plainTypes :=
  { new none none false 3 1 with
    registry := ⟨(AList.singleton 1 normalProcess).insert 2 lowProcess, ∅⟩, advantageCount }

/-- One process is queued at Normal some times, and the other once at Low. -/
def crowdedAt (advantageCount turns : Nat) : AgentScheduler plainTypes :=
  { idleAt advantageCount with queueNormal := List.replicate turns 1, queueLow := [2] }

/-- The process of Normal priority is put in and picked, some number of times. -/
def rounds (n : Nat) : List (QueueOp plainTypes) :=
  (List.replicate n [.enqueue 1, .pick]).flatten

theorem afterRound (n : Nat) (hn : n + 1 < 2 ^ 64) :
    ((idleAt n).afterTurn (.enqueue 1)).afterTurn .pick = idleAt (n + 1) := by
  have hqueued : (idleAt n).afterTurn (.enqueue 1) = { idleAt n with queueNormal := [1] } := rfl
  have hmod : (n + 1) % 2 ^ 64 = n + 1 := Nat.mod_eq_of_lt hn
  rw [hqueued, afterTurn, turnWrapping, nextRunnableWrapping]
  simp only [idleAt, new, popNormal, hmod, List.tail_cons, or_true, if_true, ne_eq,
    List.cons_ne_nil, not_false_eq_true]

theorem rounds_counted (n : Nat) (hn : n < 2 ^ 64) :
    (rounds n).foldl afterTurn (idleAt 0) = idleAt n ∧
      Guarded afterTurn CounterFits (idleAt 0) (rounds n) := by
  induction n with
  | zero => exact ⟨rfl, .nil⟩
  | succ n ih =>
      obtain ⟨hcount, hguarded⟩ := ih (Nat.lt_of_succ_lt hn)
      have hrounds : rounds (n + 1) = rounds n ++ [.enqueue 1, .pick] := by
        rw [rounds, List.replicate_succ', List.flatten_append, List.flatten_singleton, ← rounds]
      have hfits : ¬ ((idleAt n).afterTurn (.enqueue 1)).AtLast := by
        rintro ⟨-, -, hlast⟩
        change n = 2 ^ 64 - 1 at hlast
        omega
      rw [hrounds]
      constructor
      · rw [List.foldl_append, hcount]
        exact afterRound n hn
      · refine hguarded.append ?_
        rw [hcount]
        exact .cons trivial (.cons hfits .nil)

theorem turnWrapping_crowdedAt (advantageCount turns : Nat)
    (hadvantage : (advantageCount + 1) % 2 ^ 64 < normalAdvantage) :
    (crowdedAt advantageCount (turns + 1)).turnWrapping .pick =
      ⟨crowdedAt advantageCount (turns + 1), .pick, some 1,
        crowdedAt ((advantageCount + 1) % 2 ^ 64) turns⟩ := by
  have hpicked : (crowdedAt advantageCount (turns + 1)).nextRunnableWrapping =
      (some 1, crowdedAt ((advantageCount + 1) % 2 ^ 64) turns) :=
    nextRunnableWrapping_normal rfl List.replicate_succ (.inl hadvantage)
  have hturn : (crowdedAt advantageCount (turns + 1)).turnWrapping .pick =
      ⟨crowdedAt advantageCount (turns + 1), .pick,
        (crowdedAt advantageCount (turns + 1)).nextRunnableWrapping.1,
        (crowdedAt advantageCount (turns + 1)).nextRunnableWrapping.2⟩ := rfl
  rw [hturn, hpicked]

/-- As long as the counter stays small, Normal is served while Low waits. -/
theorem turns_crowdedAt (advantageCount turns : Nat)
    (hadvantage : (advantageCount + 1) % 2 ^ 64 + turns ≤ normalAdvantage) :
    ∀ turn ∈ (crowdedAt advantageCount turns).turnsWrapping (List.replicate turns .pick),
      turn.isPick ∧ turn.LowWaits ∧ turn.shortened = some .normal := by
  induction turns generalizing advantageCount with
  | zero =>
      intro turn hturn
      rw [List.replicate_zero, turnsWrapping] at hturn
      contradiction
  | succ turns ih =>
      have hsmall : (advantageCount + 1) % 2 ^ 64 < normalAdvantage := by omega
      have hnext : ((advantageCount + 1) % 2 ^ 64 + 1) % 2 ^ 64 + turns ≤ normalAdvantage := by
        have hmod := Nat.mod_le ((advantageCount + 1) % 2 ^ 64 + 1) (2 ^ 64)
        omega
      rw [List.replicate_succ, turnsWrapping, afterTurn, turnWrapping_crowdedAt _ _ hsmall]
      intro turn hturn
      rcases List.mem_cons.mp hturn with rfl | hrest
      · refine ⟨rfl, ⟨rfl, List.cons_ne_nil _ _, Option.some_ne_none _⟩, ?_⟩
        simp [Turn.shortened, crowdedAt, idleAt]
      · exact ih _ hnext turn hrest

/-- After `2 ^ 64 - 1` picks of one process, with nobody waiting at Low, a debug build panics,
and a release build serves Normal eight times while Low waits. -/
theorem not_fair_at_last :
    (∃ ops, Guarded afterTurn CounterFits (idleAt 0) ops ∧
        ops.foldl afterTurn (idleAt 0) = crowdedAt (2 ^ 64 - 1) 8) ∧
      turns true (crowdedAt (2 ^ 64 - 1) 8) (List.replicate 8 .pick) =
        .error .arithmeticOverflow ∧
      ∃ run last, turns false (crowdedAt (2 ^ 64 - 1) 8) (List.replicate 8 .pick) =
          .ok (run, last) ∧
        ¬ Fair (crowdedAt (2 ^ 64 - 1) 8) run last := by
  refine ⟨?_, ?_, _, _, turns_of_guarded false _ nofun, fun hfair => ?_⟩
  · obtain ⟨hcount, hguarded⟩ := rounds_counted (2 ^ 64 - 1) (by decide)
    refine ⟨rounds (2 ^ 64 - 1) ++ .enqueue 2 :: List.replicate 8 (.enqueue 1), ?_, ?_⟩
    · exact hguarded.append (.cons trivial (.cons trivial (.cons trivial (.cons trivial
        (.cons trivial (.cons trivial (.cons trivial (.cons trivial (.cons trivial .nil)))))))))
    · rw [List.foldl_append, hcount]
      rfl
  · rfl
  · have hturns := turns_crowdedAt (2 ^ 64 - 1) 8 (by decide)
    generalize hrun : (crowdedAt (2 ^ 64 - 1) 8).turnsWrapping (List.replicate 8 .pick) = run
      at hturns hfair
    have hpicks : run.filter Turn.isPick = run :=
      List.filter_eq_self.mpr fun turn hturn => (hturns turn hturn).1
    have hlength : run.length = 8 := by
      rw [← hrun]
      rfl
    have hwindow : run <:+: run.filter Turn.isPick := by
      rw [hpicks]
    obtain ⟨turn, hturn, hlow⟩ := hfair.low run hwindow hlength
      fun turn hturn => (hturns turn hturn).2.1
    rw [(hturns turn hturn).2.2] at hlow
    contradiction

/-- Low and Normal are put in when Normal has had its advantage. -/
theorem fair_two_picks :
    ∃ run last, turns true (idleAt 7) [.enqueue 2, .enqueue 1, .pick, .pick] = .ok (run, last) ∧
      Fair (idleAt 7) run last := by
  refine (fair_iff_counterFits (idleAt 7) (by decide) _).mpr ?_ true
  refine .cons trivial (.cons trivial (.cons ?_ (.cons ?_ .nil)))
  · exact fun hlast => absurd hlast.2.2 (by decide)
  · exact fun hlast => absurd hlast.2.2 (by decide)

end AgentScheduler

end Zeptobeam
