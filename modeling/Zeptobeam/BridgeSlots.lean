/-
The cancellation slots of the bridge.  Every accepted operation but an agent-destroy
takes a slot of its process, and the task that ran it gives one back at its end.  A task
reads the cancellation token of its process when it starts, and may start long after a
worker took its request.
-/
import Zeptobeam.Bridge
import Zeptobeam.Lib.EventLog
import Zeptobeam.Lib.GuardedRun
import Mathlib.Data.List.Perm.Basic

namespace Zeptobeam

open GuardedRun

/-- A spawned task before it starts, then with what it found of its token (whether it
was cancelled, or none), then with its response sent and its slot to be released. -/
inductive TaskStage where
  | spawned
  | started (token : Option Bool)
  | answered

structure BridgeTask where
  request : IoRequest
  stage : TaskStage

inductive BridgeEvent where
  | accepted (request : IoRequest)
  | cancelled (pid : AgentPid)
  | started (request : IoRequest) (token : Option Bool)

/-- The bridge with the tasks that its workers have spawned and a record of its events. -/
structure BridgePool where
  bridge : Bridge
  tasks : List BridgeTask
  log : List BridgeEvent

inductive PoolOp where
  | submit (pid : AgentPid) (op : IoOp)
  | cancel (pid : AgentPid)
  | drainResponses
  /-- A worker takes the next request and spawns a task for it. -/
  | take
  | start (i : Nat)
  | send (i : Nat) (result : IoResult)
  | release (i : Nat)
  /-- The task panics, or is aborted with its worker. -/
  | fail (i : Nat)
  | disconnect

namespace Bridge

def slots (bridge : Bridge) (pid : AgentPid) : Nat :=
  (bridge.cancellation.lookup pid).elim 0 CancellationEntry.inFlight

/-- What a task of the process finds of its token. -/
def token (bridge : Bridge) (pid : AgentPid) : Option Bool :=
  (bridge.cancellation.lookup pid).map CancellationEntry.cancelled

end Bridge

namespace BridgePool

def create : BridgePool := ⟨Bridge.create, [], []⟩

def submit (s : BridgePool) (pid : AgentPid) (op : IoOp) : BridgePool :=
  match s.bridge.submit pid op with
  | (.ok id, bridge) => { s with bridge, log := s.log ++ [.accepted ⟨id, pid, op⟩] }
  | (.error _, bridge) => { s with bridge }

def cancel (s : BridgePool) (pid : AgentPid) : BridgePool :=
  { s with bridge := (s.bridge.cancel pid).2, log := s.log ++ [.cancelled pid] }

def take (s : BridgePool) : BridgePool :=
  match s.bridge.requests with
  | [] => s
  | request :: requests =>
      { s with
        bridge := { s.bridge with requests }
        tasks := s.tasks ++ [⟨request, .spawned⟩] }

def start (s : BridgePool) (i : Nat) : BridgePool :=
  match s.tasks[i]? with
  | some ⟨request, .spawned⟩ =>
      let token := s.bridge.token request.sourcePid
      { s with
        tasks := s.tasks.set i ⟨request, .started token⟩
        log := s.log ++ [.started request token] }
  | _ => s

/-- The task waits while the response channel is full. -/
def send (s : BridgePool) (i : Nat) (result : IoResult) : BridgePool :=
  match s.tasks[i]? with
  | some ⟨request, .started _⟩ =>
      if s.bridge.responses.length ≥ Bridge.responseQueueSize then s
      else
        { s with
          tasks := s.tasks.set i ⟨request, .answered⟩
          bridge := { s.bridge with
            responses := s.bridge.responses ++
              [⟨request.correlationId, request.sourcePid, result⟩] } }
  | _ => s

/-- The end of a task, whatever its operation was. -/
def release (s : BridgePool) (i : Nat) : BridgePool :=
  match s.tasks[i]? with
  | some ⟨request, .answered⟩ =>
      { s with
        bridge := s.bridge.releaseCancellationSlot request.sourcePid
        tasks := s.tasks.eraseIdx i }
  | _ => s

def step (s : BridgePool) : PoolOp → BridgePool
  | .submit pid op => s.submit pid op
  | .cancel pid => s.cancel pid
  | .drainResponses => { s with bridge := s.bridge.drainResponses.2 }
  | .take => s.take
  | .start i => s.start i
  | .send i result => s.send i result
  | .release i => s.release i
  | .fail i => { s with tasks := s.tasks.eraseIdx i }
  | .disconnect => { s with bridge := s.bridge.workerStep .disconnect }

/-! ## What is asked -/

def takesSlot (pid : AgentPid) (request : IoRequest) : Bool :=
  request.sourcePid == pid && !Bridge.isAgentDestroy request.op

/-- The accepted operations of the process that have not finished. -/
def unfinished (s : BridgePool) (pid : AgentPid) : Nat :=
  s.bridge.requests.countP (takesSlot pid) +
    s.tasks.countP fun task => takesSlot pid task.request

def SlotsCounted (s : BridgePool) : Prop :=
  ∀ pid, s.bridge.slots pid = s.unfinished pid

/-- A task whose process was cancelled after the operation was accepted starts with a
cancelled token. -/
def StartAllowed (before : List BridgeEvent) : BridgeEvent → Prop
  | .started request token =>
      Bridge.isAgentDestroy request.op = false →
        EventLog.Followed (.accepted request) (.cancelled request.sourcePid) before →
          token = some true
  | _ => True

structure SlotsSafe (s : BridgePool) : Prop where
  counted : s.SlotsCounted
  cancelled : EventLog.Lawful StartAllowed s.log

/-- The task of an agent-destroy ends only when its process has no slots taken, and no
other task goes without releasing its slot. -/
def SlotsKept (s : BridgePool) : PoolOp → Prop
  | .release i => ∀ task, s.tasks[i]? = some task → task.stage = .answered →
      Bridge.isAgentDestroy task.request.op = true → s.bridge.token task.request.sourcePid = none
  | .fail i => ∀ task, s.tasks[i]? = some task → Bridge.isAgentDestroy task.request.op = true
  | _ => True

end BridgePool

/-! ## The cancellation table -/

namespace Bridge

variable {bridge : Bridge} {pid p : AgentPid}

/-- An entry stands for at least one slot. -/
def Entered (bridge : Bridge) : Prop :=
  ∀ pid, bridge.token pid = none ↔ bridge.slots pid = 0

theorem slots_eq_of_lookup {other : Bridge}
    (h : other.cancellation.lookup p = bridge.cancellation.lookup p) :
    other.slots p = bridge.slots p := by
  rw [slots, slots, h]

theorem token_eq_of_lookup {other : Bridge}
    (h : other.cancellation.lookup p = bridge.cancellation.lookup p) :
    other.token p = bridge.token p := by
  rw [token, token, h]

theorem slots_reserve (bridge : Bridge) (pid p : AgentPid) :
    (bridge.reserveCancellationSlot pid).slots p =
      bridge.slots p + if p = pid then 1 else 0 := by
  by_cases hp : p = pid
  · subst hp
    unfold slots reserveCancellationSlot
    cases bridge.cancellation.lookup p <;> simp
  · rw [if_neg hp, Nat.add_zero]
    exact slots_eq_of_lookup (AList.lookup_insert_ne hp)

theorem token_reserve (bridge : Bridge) (pid p : AgentPid) :
    (bridge.reserveCancellationSlot pid).token p =
      if p = pid then some ((bridge.token p).getD false) else bridge.token p := by
  by_cases hp : p = pid
  · subst hp
    unfold token reserveCancellationSlot
    cases bridge.cancellation.lookup p <;> simp
  · rw [if_neg hp]
    exact token_eq_of_lookup (AList.lookup_insert_ne hp)

theorem lookup_release_ne (hp : p ≠ pid) :
    (bridge.releaseCancellationSlot pid).cancellation.lookup p =
      bridge.cancellation.lookup p := by
  unfold releaseCancellationSlot
  split
  · rfl
  · split
    · exact AList.lookup_insert_ne hp
    · exact AList.lookup_erase_ne hp

theorem slots_release (bridge : Bridge) (pid p : AgentPid) :
    (bridge.releaseCancellationSlot pid).slots p =
      bridge.slots p - if p = pid then 1 else 0 := by
  by_cases hp : p = pid
  · subst hp
    unfold slots releaseCancellationSlot
    cases hentry : bridge.cancellation.lookup p with
    | none => simp [hentry]
    | some entry =>
        by_cases hmany : entry.inFlight > 1
        · simp [hmany]
        · simp only [hmany, if_false, AList.lookup_erase, Option.elim_none, Option.elim_some,
            if_true]
          omega
  · rw [if_neg hp, Nat.sub_zero]
    exact slots_eq_of_lookup (lookup_release_ne hp)

theorem token_release (bridge : Bridge) (pid p : AgentPid) :
    (bridge.releaseCancellationSlot pid).token p =
      if p = pid ∧ bridge.slots p ≤ 1 then none else bridge.token p := by
  by_cases hp : p = pid
  · subst hp
    unfold token slots releaseCancellationSlot
    cases hentry : bridge.cancellation.lookup p with
    | none => simp [hentry]
    | some entry =>
        by_cases hmany : entry.inFlight > 1
        · have hfew : ¬ entry.inFlight ≤ 1 := by omega
          simp [hmany, hfew]
        · have hfew : entry.inFlight ≤ 1 := by omega
          simp [hmany, hfew]
  · rw [if_neg (fun h => hp h.1)]
    exact token_eq_of_lookup (lookup_release_ne hp)

theorem slots_cancel (bridge : Bridge) (pid p : AgentPid) :
    (bridge.cancel pid).2.slots p = bridge.slots p := by
  unfold cancel
  cases hentry : bridge.cancellation.lookup pid with
  | none => rfl
  | some entry =>
      dsimp only
      split
      · rfl
      · by_cases hp : p = pid
        · subst hp
          simp [slots, hentry]
        · exact slots_eq_of_lookup (AList.lookup_insert_ne hp)

theorem token_cancel (bridge : Bridge) (pid p : AgentPid) :
    (bridge.cancel pid).2.token p =
      if p = pid then (bridge.token p).map fun _ => true else bridge.token p := by
  unfold cancel
  by_cases hp : p = pid
  · subst hp
    cases hentry : bridge.cancellation.lookup p with
    | none => simp [token, hentry]
    | some entry =>
        cases hcancelled : entry.cancelled <;> simp [token, hentry, hcancelled]
  · rw [if_neg hp]
    cases bridge.cancellation.lookup pid with
    | none => rfl
    | some entry =>
        dsimp only
        split
        · rfl
        · exact token_eq_of_lookup (AList.lookup_insert_ne hp)

theorem Entered.reserve (h : bridge.Entered) (pid : AgentPid) :
    (bridge.reserveCancellationSlot pid).Entered := by
  intro p
  rw [token_reserve, slots_reserve]
  by_cases hp : p = pid
  · simp [hp]
  · simpa [hp] using h p

theorem Entered.release (h : bridge.Entered) (pid : AgentPid) :
    (bridge.releaseCancellationSlot pid).Entered := by
  intro p
  rw [token_release, slots_release]
  by_cases hp : p = pid
  · have hone := h p
    by_cases hfew : bridge.slots p ≤ 1
    · simp only [hp, true_and, if_true] at hfew ⊢
      simp only [hfew, if_true, true_iff]
      omega
    · simp only [hfew, and_false, if_false, hone]
      simp only [hp, if_true] at hfew ⊢
      omega
  · simpa [hp] using h p

theorem Entered.cancel (h : bridge.Entered) (pid : AgentPid) :
    (bridge.cancel pid).2.Entered := by
  intro p
  rw [token_cancel, slots_cancel]
  by_cases hp : p = pid
  · simpa [hp] using h pid
  · simpa [hp] using h p

/-- Giving back a slot just reserved leaves the table as it was. -/
theorem release_reserve (h : bridge.Entered) {other : Bridge}
    (hother : other.cancellation = (bridge.reserveCancellationSlot pid).cancellation)
    (p : AgentPid) :
    (other.releaseCancellationSlot pid).slots p = bridge.slots p ∧
      (other.releaseCancellationSlot pid).token p = bridge.token p := by
  have hslots : other.slots p = (bridge.reserveCancellationSlot pid).slots p :=
    slots_eq_of_lookup (by rw [hother])
  have htoken : other.token p = (bridge.reserveCancellationSlot pid).token p :=
    token_eq_of_lookup (by rw [hother])
  rw [slots_release, token_release, hslots, htoken, slots_reserve, token_reserve]
  by_cases hp : p = pid
  · subst hp
    refine ⟨by simp, ?_⟩
    by_cases hzero : bridge.slots p = 0
    · simp [hzero, (h p).mpr hzero]
    · obtain ⟨flag, hflag⟩ := Option.ne_none_iff_exists'.mp ((h p).not.mpr hzero)
      simp [hzero, hflag]
  · simp [hp]

theorem cancellation_reject (bridge : Bridge) (pid : AgentPid) (op : IoOp) (busy : Bool) :
    (bridge.rejectSubmit pid op busy).cancellation =
      if isAgentDestroy op then bridge.cancellation
      else (bridge.releaseCancellationSlot pid).cancellation := by
  unfold rejectSubmit
  cases isAgentDestroy op with
  | true =>
      dsimp only [if_true]
      split <;> rfl
  | false =>
      dsimp only [Bool.false_eq_true, if_false]
      split <;> rfl

theorem nextCorrelationId_release (bridge : Bridge) (pid : AgentPid) :
    (bridge.releaseCancellationSlot pid).nextCorrelationId = bridge.nextCorrelationId := by
  unfold releaseCancellationSlot
  split
  · rfl
  · split <;> rfl

theorem nextCorrelationId_reject (bridge : Bridge) (pid : AgentPid) (op : IoOp)
    (busy : Bool) :
    (bridge.rejectSubmit pid op busy).nextCorrelationId = bridge.nextCorrelationId := by
  have hreleased := nextCorrelationId_release bridge pid
  unfold rejectSubmit
  cases isAgentDestroy op with
  | true =>
      dsimp only [if_true]
      split <;> rfl
  | false =>
      dsimp only [Bool.false_eq_true, if_false]
      split
      · exact hreleased
      · exact hreleased

/-- A refused submission leaves the table as it was. -/
structure Refused (bridge bridge' : Bridge) : Prop where
  channels : SameChannels bridge bridge'
  nextCorrelationId : bridge'.nextCorrelationId = bridge.nextCorrelationId + 1
  slots : ∀ p, bridge'.slots p = bridge.slots p
  token : ∀ p, bridge'.token p = bridge.token p

/-- An accepted one takes its slot, and no token is lost. -/
structure Accepted (bridge : Bridge) (request : IoRequest) (bridge' : Bridge) : Prop where
  requests : bridge'.requests = bridge.requests ++ [request]
  nextCorrelationId : bridge'.nextCorrelationId = bridge.nextCorrelationId + 1
  slots : ∀ p, bridge'.slots p =
    bridge.slots p + if BridgePool.takesSlot p request then 1 else 0
  entered : bridge'.Entered
  token : ∀ p, bridge.token p = some true → bridge'.token p = some true

theorem refused_reject (h : bridge.Entered) {op : IoOp} {counted : Bridge}
    (hchannels : SameChannels bridge counted)
    (hnext : counted.nextCorrelationId = bridge.nextCorrelationId + 1)
    (hcounted : counted.cancellation = if isAgentDestroy op then bridge.cancellation
      else (bridge.reserveCancellationSlot pid).cancellation) (busy : Bool) :
    Refused bridge (counted.rejectSubmit pid op busy) := by
  have hcancellation := cancellation_reject counted pid op busy
  have htable : ∀ p, (counted.rejectSubmit pid op busy).slots p = bridge.slots p ∧
      (counted.rejectSubmit pid op busy).token p = bridge.token p := by
    intro p
    cases hop : isAgentDestroy op with
    | true =>
        rw [hop, if_pos rfl] at hcounted hcancellation
        exact ⟨slots_eq_of_lookup (by rw [hcancellation, hcounted]),
          token_eq_of_lookup (by rw [hcancellation, hcounted])⟩
    | false =>
        rw [hop, if_neg Bool.false_ne_true] at hcounted hcancellation
        have hback := release_reserve h hcounted p
        rw [← hback.1, ← hback.2]
        exact ⟨slots_eq_of_lookup (by rw [hcancellation]),
          token_eq_of_lookup (by rw [hcancellation])⟩
  exact {
    channels := hchannels.trans (sameChannels_reject counted pid op busy)
    nextCorrelationId := (nextCorrelationId_reject counted pid op busy).trans hnext
    slots := fun p => (htable p).1
    token := fun p => (htable p).2 }

theorem accepted_enqueue (h : bridge.Entered) {op : IoOp} {reserved : Bridge}
    (hreserved : (if isAgentDestroy op then bridge else bridge.reserveCancellationSlot pid) =
      reserved) :
    reserved.nextCorrelationId = bridge.nextCorrelationId ∧
      Accepted bridge ⟨bridge.nextCorrelationId, pid, op⟩
        { reserved with
          nextCorrelationId := reserved.nextCorrelationId + 1
          requests := reserved.requests ++ [⟨reserved.nextCorrelationId, pid, op⟩] } := by
  cases hop : isAgentDestroy op with
  | true =>
      rw [hop, if_pos rfl] at hreserved
      subst hreserved
      refine ⟨rfl, rfl, rfl, fun p => ?_, h, fun p hp => hp⟩
      simp only [BridgePool.takesSlot, hop, Bool.not_true, Bool.and_false,
        Bool.false_eq_true, if_false, Nat.add_zero]
      rfl
  | false =>
      rw [hop, if_neg Bool.false_ne_true] at hreserved
      subst hreserved
      refine ⟨rfl, rfl, rfl, fun p => ?_, h.reserve pid, fun p hp => ?_⟩
      · have htakes : BridgePool.takesSlot p ⟨bridge.nextCorrelationId, pid, op⟩ =
            decide (p = pid) := by
          simp [BridgePool.takesSlot, hop, eq_comm, Bool.beq_eq_decide_eq]
        simp only [htakes, decide_eq_true_eq]
        exact slots_reserve bridge pid p
      · have htoken := token_reserve bridge pid p
        rw [hp] at htoken
        refine htoken.trans ?_
        split <;> rfl

theorem submit_slots_cases (h : bridge.Entered) (pid : AgentPid) (op : IoOp) :
    (∃ text bridge', bridge.submit pid op = (.error text, bridge') ∧
      Refused bridge bridge') ∨
    ∃ bridge', bridge.submit pid op = (.ok bridge.nextCorrelationId, bridge') ∧
      Accepted bridge ⟨bridge.nextCorrelationId, pid, op⟩ bridge' := by
  unfold submit
  generalize hreserved : (if isAgentDestroy op then bridge
    else bridge.reserveCancellationSlot pid) = reserved
  have hrefused : ∀ busy, Refused bridge
      ({ reserved with nextCorrelationId := reserved.nextCorrelationId + 1 }.rejectSubmit pid
        op busy) := by
    apply refused_reject h
    · rw [← hreserved]
      split <;> exact ⟨rfl, rfl, rfl⟩
    · rw [← hreserved]
      split <;> rfl
    · rw [← hreserved]
      split <;> rfl
  dsimp only
  split
  · exact .inl ⟨_, _, rfl, hrefused false⟩
  · split
    · exact .inl ⟨_, _, rfl, hrefused true⟩
    · obtain ⟨hnext, haccepted⟩ := accepted_enqueue h hreserved
      exact .inr ⟨_, by rw [hnext], haccepted⟩

end Bridge

/-! ## One step -/

namespace BridgePool

variable {s : BridgePool} {pid : AgentPid} {task : BridgeTask} {request : IoRequest}
  {i : Nat} {op : PoolOp}

/-- The operation was accepted, and no task has started it. -/
def Waiting (s : BridgePool) (request : IoRequest) : Prop :=
  request ∈ s.bridge.requests ∨ ⟨request, .spawned⟩ ∈ s.tasks

structure Inv (s : BridgePool) : Prop where
  entered : s.bridge.Entered
  safe : s.SlotsSafe
  fresh : ∀ request, .accepted request ∈ s.log →
    request.correlationId < s.bridge.nextCorrelationId
  waiting : ∀ request, s.Waiting request → Bridge.isAgentDestroy request.op = false →
    EventLog.Followed (.accepted request) (.cancelled request.sourcePid) s.log →
      s.bridge.token request.sourcePid = some true

theorem takesSlot_self (hop : Bridge.isAgentDestroy request.op = false) :
    takesSlot request.sourcePid request = true := by
  simp [takesSlot, hop]

theorem takesSlot_of_isAgentDestroy (hop : Bridge.isAgentDestroy request.op = true)
    (pid : AgentPid) : takesSlot pid request = false := by
  simp [takesSlot, hop]

theorem countP_eraseIdx {l : List BridgeTask} (q : BridgeTask → Bool)
    (hi : l[i]? = some task) :
    l.countP q = (l.eraseIdx i).countP q + if q task then 1 else 0 := by
  obtain ⟨hlt, rfl⟩ := List.getElem?_eq_some_iff.mp hi
  rw [← List.countP_cons]
  exact ((List.getElem_cons_eraseIdx_perm hlt).countP_eq q).symm

theorem unfinished_eraseIdx (hi : s.tasks[i]? = some task) (pid : AgentPid) :
    s.unfinished pid = unfinished { s with tasks := s.tasks.eraseIdx i } pid +
      if takesSlot pid task.request then 1 else 0 := by
  have hcount := countP_eraseIdx (fun task => takesSlot pid task.request) hi
  dsimp only [unfinished]
  omega

/-- A task that goes on keeps its request. -/
theorem countP_set_stage {l : List BridgeTask} (hi : l[i]? = some task) (stage : TaskStage)
    (q : IoRequest → Bool) :
    (l.set i ⟨task.request, stage⟩).countP (fun task => q task.request) =
      l.countP fun task => q task.request := by
  obtain ⟨hlt, rfl⟩ := List.getElem?_eq_some_iff.mp hi
  have hmap : (l.set i ⟨l[i].request, stage⟩).map BridgeTask.request =
      l.map BridgeTask.request := by
    rw [List.map_set, ← List.getElem_map BridgeTask.request (h := by simpa using hlt),
      List.set_getElem_self]
  have hcount := congrArg (List.countP q) hmap
  rwa [List.countP_map, List.countP_map] at hcount

theorem unfinished_pos (hwaiting : s.Waiting request)
    (hop : Bridge.isAgentDestroy request.op = false) : 0 < s.unfinished request.sourcePid := by
  have htakes := takesSlot_self hop
  rcases hwaiting with hqueued | hspawned
  · have hpos : 0 < s.bridge.requests.countP (takesSlot request.sourcePid) :=
      List.countP_pos_iff.mpr ⟨request, hqueued, htakes⟩
    unfold unfinished
    omega
  · have hpos : 0 < s.tasks.countP fun task => takesSlot request.sourcePid task.request :=
      List.countP_pos_iff.mpr ⟨_, hspawned, htakes⟩
    unfold unfinished
    omega

/-- Where the slots are counted, a waiting operation has a token. -/
theorem token_ne_none (hentered : s.bridge.Entered) (hcounted : s.SlotsCounted)
    (hwaiting : s.Waiting request) (hop : Bridge.isAgentDestroy request.op = false) :
    s.bridge.token request.sourcePid ≠ none := by
  have hpos := unfinished_pos hwaiting hop
  rw [← hcounted] at hpos
  exact (hentered request.sourcePid).not.mpr (by omega)

theorem inv_create : create.Inv where
  entered _ := ⟨fun _ => rfl, fun _ => rfl⟩
  safe := ⟨fun _ => rfl, EventLog.lawful_nil⟩
  fresh _ h := by cases h
  waiting _ h := by rcases h with h | h <;> cases h

theorem Inv.submit (h : s.Inv) (pid : AgentPid) (op : IoOp) : (s.submit pid op).Inv := by
  unfold BridgePool.submit
  rcases Bridge.submit_slots_cases h.entered pid op with
    ⟨text, bridge', hsubmit, hrefused⟩ | ⟨bridge', hsubmit, haccepted⟩
  · rw [hsubmit]
    exact {
      entered := fun p => by
        rw [hrefused.token, hrefused.slots]
        exact h.entered p
      safe := ⟨fun p => by
        have hcounted := h.safe.counted p
        rw [hrefused.slots, hcounted]
        unfold unfinished
        rw [hrefused.channels.requests], h.safe.cancelled⟩
      fresh := fun request hrequest => by
        have hlt := h.fresh request hrequest
        rw [hrefused.nextCorrelationId]
        omega
      waiting := fun request hwaiting hop hfollowed => by
        rw [hrefused.token]
        refine h.waiting request ?_ hop hfollowed
        rwa [Waiting, hrefused.channels.requests] at hwaiting }
  · rw [hsubmit]
    dsimp only
    exact {
      entered := haccepted.entered
      safe := ⟨fun p => by
        have hcounted := h.safe.counted p
        unfold unfinished at hcounted ⊢
        dsimp only
        rw [haccepted.slots, haccepted.requests, List.countP_append, List.countP_singleton]
        omega, EventLog.lawful_concat_iff.mpr ⟨h.safe.cancelled, trivial⟩⟩
      fresh := fun request hrequest => by
        rw [haccepted.nextCorrelationId]
        rcases List.mem_append.mp hrequest with hold | hnew
        · have hlt := h.fresh request hold
          omega
        · obtain rfl := BridgeEvent.accepted.inj (List.mem_singleton.mp hnew)
          exact Nat.lt_succ_self _
      waiting := fun request hwaiting hop hfollowed => by
        rcases EventLog.followed_concat_iff.mp hfollowed with hfollowed | ⟨_, hevent⟩
        · apply haccepted.token
          refine h.waiting request ?_ hop hfollowed
          rcases hwaiting with hqueued | hspawned
          · rw [haccepted.requests] at hqueued
            rcases List.mem_append.mp hqueued with hold | hnew
            · exact .inl hold
            · obtain rfl := List.mem_singleton.mp hnew
              exact absurd (h.fresh _ hfollowed.mem) (Nat.lt_irrefl _)
          · exact .inr hspawned
        · cases hevent }

theorem Inv.cancel (h : s.Inv) (pid : AgentPid) : (s.cancel pid).Inv where
  entered := h.entered.cancel pid
  safe := ⟨fun p => by
    have hcounted := h.safe.counted p
    have hsame := (Bridge.sameChannels_cancel s.bridge pid).requests
    unfold unfinished at hcounted ⊢
    rw [BridgePool.cancel, Bridge.slots_cancel, hcounted, hsame],
    EventLog.lawful_concat_iff.mpr ⟨h.safe.cancelled, trivial⟩⟩
  fresh request hrequest := by
    have hnext : (s.bridge.cancel pid).2.nextCorrelationId = s.bridge.nextCorrelationId := by
      unfold Bridge.cancel
      split
      · rfl
      · split <;> rfl
    rcases List.mem_append.mp hrequest with hold | hnew
    · exact hnext ▸ h.fresh request hold
    · cases List.mem_singleton.mp hnew
  waiting request hwaiting hop hfollowed := by
    have hwaiting' : s.Waiting request := by
      have hsame := (Bridge.sameChannels_cancel s.bridge pid).requests
      rwa [Waiting, BridgePool.cancel, hsame] at hwaiting
    have htoken := token_ne_none h.entered h.safe.counted hwaiting' hop
    obtain ⟨flag, hflag⟩ := Option.ne_none_iff_exists'.mp htoken
    rw [BridgePool.cancel, Bridge.token_cancel, hflag]
    rcases EventLog.followed_concat_iff.mp hfollowed with hfollowed | ⟨_, hevent⟩
    · rw [h.waiting request hwaiting' hop hfollowed] at hflag
      split
      · rfl
      · exact hflag.symm
    · rw [if_pos (BridgeEvent.cancelled.inj hevent).symm]
      rfl

/-- A step that leaves the table, the log and what is unfinished alone. -/
theorem Inv.quiet {s' : BridgePool} (h : s.Inv)
    (htable : s'.bridge.cancellation = s.bridge.cancellation)
    (hnext : s'.bridge.nextCorrelationId = s.bridge.nextCorrelationId)
    (hlog : s'.log = s.log) (hunfinished : ∀ pid, s'.unfinished pid = s.unfinished pid)
    (hwaiting : ∀ request, s'.Waiting request → s.Waiting request) : s'.Inv := by
  have hslots : ∀ pid, s'.bridge.slots pid = s.bridge.slots pid :=
    fun pid => Bridge.slots_eq_of_lookup (by rw [htable])
  have htoken : ∀ pid, s'.bridge.token pid = s.bridge.token pid :=
    fun pid => Bridge.token_eq_of_lookup (by rw [htable])
  exact {
    entered := fun pid => by
      rw [htoken, hslots]
      exact h.entered pid
    safe := ⟨fun pid => by rw [hslots, hunfinished, h.safe.counted],
      hlog ▸ h.safe.cancelled⟩
    fresh := by
      rw [hlog, hnext]
      exact h.fresh
    waiting := fun request hrequest hop hfollowed => by
      rw [hlog] at hfollowed
      rw [htoken]
      exact h.waiting request (hwaiting request hrequest) hop hfollowed }

theorem Inv.take (h : s.Inv) : s.take.Inv := by
  unfold BridgePool.take
  split
  · exact h
  · rename_i request requests hrequests
    refine h.quiet rfl rfl rfl ?_ ?_
    · intro pid
      unfold unfinished
      rw [hrequests, List.countP_cons, List.countP_append, List.countP_singleton]
      dsimp only
      omega
    · rintro other (hqueued | hspawned)
      · exact .inl (hrequests ▸ List.mem_cons_of_mem request hqueued)
      · rcases List.mem_append.mp hspawned with hold | hnew
        · exact .inr hold
        · obtain rfl : other = request := by simpa using hnew
          exact .inl (hrequests ▸ List.mem_cons_self)

theorem waiting_of_set {stage : TaskStage} (hstage : stage ≠ .spawned)
    {other : IoRequest} {bridge : Bridge} {log : List BridgeEvent}
    (hrequests : bridge.requests = s.bridge.requests)
    (hwaiting : Waiting ⟨bridge, s.tasks.set i ⟨request, stage⟩, log⟩ other) :
    s.Waiting other := by
  rcases hwaiting with hqueued | hspawned
  · exact .inl (hrequests ▸ hqueued)
  · rcases List.mem_or_eq_of_mem_set hspawned with hold | hnew
    · exact .inr hold
    · exact absurd (BridgeTask.mk.inj hnew).2.symm hstage

theorem Inv.start (h : s.Inv) (i : Nat) : (s.start i).Inv := by
  unfold BridgePool.start
  split
  · rename_i request hi
    have hrequest : s.Waiting request := .inr (List.mem_of_getElem? hi)
    have hset : BridgePool.Inv { s with
        tasks := s.tasks.set i ⟨request, .started (s.bridge.token request.sourcePid)⟩ } :=
      h.quiet rfl rfl rfl
        (fun pid => by
          unfold unfinished
          rw [countP_set_stage hi])
        (fun other => waiting_of_set (by simp) rfl)
    exact {
      entered := hset.entered
      safe := ⟨hset.safe.counted,
        EventLog.lawful_concat_iff.mpr ⟨h.safe.cancelled, h.waiting request hrequest⟩⟩
      fresh := fun other hother => by
        rcases List.mem_append.mp hother with hold | hnew
        · exact h.fresh other hold
        · cases List.mem_singleton.mp hnew
      waiting := fun other hother hop hfollowed => by
        rcases EventLog.followed_concat_iff.mp hfollowed with hfollowed | ⟨_, hevent⟩
        · exact hset.waiting other hother hop hfollowed
        · cases hevent }
  · exact h

theorem Inv.send (h : s.Inv) (i : Nat) (result : IoResult) : (s.send i result).Inv := by
  unfold BridgePool.send
  split
  · rename_i request token hi
    split
    · exact h
    · refine h.quiet rfl rfl rfl ?_ ?_
      · intro pid
        unfold unfinished
        rw [countP_set_stage hi]
      · intro other
        exact waiting_of_set (by simp) rfl
  · exact h

theorem unfinished_release (hi : s.tasks[i]? = some ⟨request, .answered⟩) (pid : AgentPid) :
    s.unfinished pid = (s.release i).unfinished pid +
      if takesSlot pid request then 1 else 0 := by
  have herase := unfinished_eraseIdx hi pid
  have hrequests := (Bridge.sameChannels_release s.bridge request.sourcePid).requests
  unfold BridgePool.release
  rw [hi]
  unfold unfinished at herase ⊢
  dsimp only at herase ⊢
  rw [hrequests]
  exact herase

/-- The end of a task takes off a slot exactly when its operation took one. -/
theorem counted_release (hcounted : s.SlotsCounted)
    (hi : s.tasks[i]? = some ⟨request, .answered⟩)
    (hkept : Bridge.isAgentDestroy request.op = true →
      s.bridge.slots request.sourcePid = 0) : (s.release i).SlotsCounted := by
  intro pid
  have hcount := unfinished_release hi pid
  have hbefore := hcounted pid
  have hslots : (s.release i).bridge.slots pid =
      s.bridge.slots pid - if pid = request.sourcePid then 1 else 0 := by
    rw [← Bridge.slots_release]
    unfold BridgePool.release
    rw [hi]
  rw [hslots]
  cases hop : Bridge.isAgentDestroy request.op with
  | true =>
      have hzero := hkept hop
      rw [takesSlot_of_isAgentDestroy hop, if_neg Bool.false_ne_true] at hcount
      split
      · rename_i hpid
        subst hpid
        omega
      · omega
  | false =>
      have htakes : takesSlot pid request = decide (pid = request.sourcePid) := by
        simp [takesSlot, hop, eq_comm, Bool.beq_eq_decide_eq]
      simp only [htakes, decide_eq_true_eq] at hcount
      omega

theorem Inv.release (h : s.Inv) (hkept : s.SlotsKept (.release i)) : (s.release i).Inv := by
  cases hi : s.tasks[i]? with
  | none =>
      have hsame : s.release i = s := by
        unfold BridgePool.release
        rw [hi]
      exact hsame.symm ▸ h
  | some task =>
      obtain ⟨request, stage⟩ := task
      cases stage with
      | spawned | started =>
          have hsame : s.release i = s := by
            unfold BridgePool.release
            rw [hi]
          exact hsame.symm ▸ h
      | answered =>
          have hafter : s.release i = { s with
              bridge := s.bridge.releaseCancellationSlot request.sourcePid
              tasks := s.tasks.eraseIdx i } := by
            unfold BridgePool.release
            rw [hi]
          have hcounted := counted_release h.safe.counted hi fun hop =>
            (h.entered request.sourcePid).mp (hkept _ hi rfl hop)
          rw [hafter] at hcounted ⊢
          have hentered := h.entered.release request.sourcePid
          have hnext := Bridge.nextCorrelationId_release s.bridge request.sourcePid
          have hrequests := (Bridge.sameChannels_release s.bridge request.sourcePid).requests
          exact {
            entered := hentered
            safe := ⟨hcounted, h.safe.cancelled⟩
            fresh := fun other hother => by
              rw [hnext]
              exact h.fresh other hother
            waiting := fun other hother hop hfollowed => by
              -- its own slot is still counted, so the entry with its token stays
              have htoken := token_ne_none hentered hcounted hother hop
              have hwaiting : s.Waiting other := by
                rcases hother with hqueued | hspawned
                · exact .inl (hrequests ▸ hqueued)
                · exact .inr (List.mem_of_mem_eraseIdx hspawned)
              rw [← h.waiting other hwaiting hop hfollowed]
              rw [Bridge.token_release] at htoken ⊢
              split at htoken
              · exact absurd rfl htoken
              · rename_i hmany
                rw [if_neg hmany] }

theorem Inv.fail (h : s.Inv) (hkept : s.SlotsKept (.fail i)) :
    Inv { s with tasks := s.tasks.eraseIdx i } := by
  refine h.quiet rfl rfl rfl ?_ ?_
  · intro pid
    cases hi : s.tasks[i]? with
    | none => rw [List.eraseIdx_of_length_le (List.getElem?_eq_none_iff.mp hi)]
    | some task =>
        rw [unfinished_eraseIdx hi, takesSlot_of_isAgentDestroy (hkept task hi)]
        simp
  · rintro other (hqueued | hspawned)
    · exact .inl hqueued
    · exact .inr (List.mem_of_mem_eraseIdx hspawned)

theorem Inv.step (h : s.Inv) (hkept : s.SlotsKept op) : (s.step op).Inv := by
  cases op with
  | submit pid op => exact h.submit pid op
  | cancel pid => exact h.cancel pid
  | drainResponses => exact h.quiet rfl rfl rfl (fun _ => rfl) (fun _ hwaiting => hwaiting)
  | take => exact h.take
  | start i => exact h.start i
  | send i result => exact h.send i result
  | release i => exact h.release hkept
  | fail i => exact h.fail hkept
  | disconnect => exact h.quiet rfl rfl rfl (fun _ => rfl) (fun _ hwaiting => hwaiting)

/-! ## Slots that drift -/

theorem not_counted_release (h : s.Inv) (hi : s.tasks[i]? = some ⟨request, .answered⟩)
    (hop : Bridge.isAgentDestroy request.op = true)
    (htoken : s.bridge.token request.sourcePid ≠ none) : ¬ (s.release i).SlotsCounted := by
  intro hcounted
  have hafter := hcounted request.sourcePid
  have hcount := unfinished_release hi request.sourcePid
  rw [takesSlot_of_isAgentDestroy hop, if_neg Bool.false_ne_true] at hcount
  have hslots : (s.release i).bridge.slots request.sourcePid =
      s.bridge.slots request.sourcePid - 1 := by
    have hrelease := Bridge.slots_release s.bridge request.sourcePid request.sourcePid
    rw [if_pos rfl] at hrelease
    unfold BridgePool.release
    rw [hi]
    exact hrelease
  have hbefore := h.safe.counted request.sourcePid
  have hpos := (h.entered request.sourcePid).not.mp htoken
  omega

theorem not_counted_fail (h : s.Inv) (hi : s.tasks[i]? = some task)
    (hop : Bridge.isAgentDestroy task.request.op = false) :
    ¬ SlotsCounted { s with tasks := s.tasks.eraseIdx i } := by
  intro hcounted
  have hafter := hcounted task.request.sourcePid
  have hbefore := h.safe.counted task.request.sourcePid
  have hcount := unfinished_eraseIdx hi task.request.sourcePid
  rw [takesSlot_self hop, if_pos rfl] at hcount
  dsimp only at hafter
  omega

theorem not_safe_of_not_kept (h : s.Inv) (hkept : ¬ s.SlotsKept op) :
    ¬ (s.step op).SlotsSafe := by
  intro hsafe
  cases op with
  | release i =>
      simp only [SlotsKept, not_forall] at hkept
      obtain ⟨⟨request, stage⟩, hi, rfl, hop, htoken⟩ := hkept
      exact not_counted_release h hi hop htoken hsafe.counted
  | fail i =>
      simp only [SlotsKept, not_forall, Bool.not_eq_true] at hkept
      obtain ⟨task, hi, hop⟩ := hkept
      exact not_counted_fail h hi hop hsafe.counted
  | submit pid op => exact hkept trivial
  | cancel pid => exact hkept trivial
  | drainResponses => exact hkept trivial
  | take => exact hkept trivial
  | start i => exact hkept trivial
  | send i result => exact hkept trivial
  | disconnect => exact hkept trivial

/-- The counters are right and no operation escapes its cancellation, throughout a run,
exactly when no agent-destroy ends while its process has slots taken and no other task
goes without its release. -/
theorem slots_safe_iff (ops : List PoolOp) :
    Throughout step SlotsSafe create ops ↔ Guarded step SlotsKept create ops :=
  throughout_iff_guarded SlotsKept SlotsSafe inv_create (fun _ _ h => h.step)
    (fun _ h => h.safe) (fun _ _ h => not_safe_of_not_kept h) ops

/-- Two timers of process 7 are queued when it is cancelled; the agent-destroy submitted
after them ends first and takes off a slot of theirs.  The first timer then ends with the
last slot, and the second one starts without a token. -/
theorem timer_escapes :
    let ops : List PoolOp := [.submit 7 (.timer 5), .submit 7 (.timer 6), .cancel 7,
      .submit 7 (.agentDestroy 7), .take, .take, .take, .start 2, .send 2 .timeout, .release 2]
    let more : List PoolOp := [.start 0, .send 0 .timeout, .release 0, .start 0]
    (ops.foldl step create).bridge.slots 7 = 1 ∧ (ops.foldl step create).unfinished 7 = 2 ∧
      ¬ EventLog.Lawful StartAllowed ((ops ++ more).foldl step create).log ∧
      ¬ Throughout step SlotsSafe create (ops ++ more) := by
  intro ops more
  have hlog : ((ops ++ more).foldl step create).log =
      [.accepted ⟨0, 7, .timer 5⟩, .accepted ⟨1, 7, .timer 6⟩, .cancelled 7,
        .accepted ⟨2, 7, .agentDestroy 7⟩, .started ⟨2, 7, .agentDestroy 7⟩ (some true),
        .started ⟨0, 7, .timer 5⟩ (some true), .started ⟨1, 7, .timer 6⟩ none] := rfl
  have hescaped : ¬ EventLog.Lawful StartAllowed ((ops ++ more).foldl step create).log := by
    intro hlawful
    rw [hlog] at hlawful
    have hstart := hlawful [_, _, _, _, _, _] (.started ⟨1, 7, .timer 6⟩ none) [] rfl rfl
      ⟨[_], [_, _, _, _], rfl, List.mem_cons_self⟩
    cases hstart
  refine ⟨rfl, rfl, hescaped, fun hsafe => ?_⟩
  exact hescaped (hsafe _ List.prefix_rfl).cancelled

/-! ## Answers -/

/-- Who asked for the operation, and under which id. -/
def ticket (request : IoRequest) : AgentPid × Nat :=
  (request.sourcePid, request.correlationId)

def accepted (s : BridgePool) : List (AgentPid × Nat) :=
  s.log.filterMap fun event =>
    match event with
    | .accepted request => some (ticket request)
    | _ => none

def unanswered (task : BridgeTask) : Option (AgentPid × Nat) :=
  match task.stage with
  | .answered => none
  | _ => some (ticket task.request)

/-- The accepted operations whose responses were not handed over. -/
def owed (s : BridgePool) : List (AgentPid × Nat) :=
  s.bridge.requests.map ticket ++ s.tasks.filterMap unanswered ++
    s.bridge.responses.map fun response => (response.sourcePid, response.correlationId)

/-- The operations whose responses are handed over, or that end with their task. -/
def settled (s : BridgePool) : PoolOp → List (AgentPid × Nat)
  | .drainResponses => s.bridge.drainResponses.1.filterMap fun
      | (pid, .system (.ioResponse correlationId _)) => some (pid, correlationId)
      | _ => none
  | .fail i => (s.tasks[i]?.bind unanswered).toList
  | _ => []

def settledBy (s : BridgePool) : List PoolOp → List (AgentPid × Nat)
  | [] => []
  | op :: ops => s.settled op ++ (s.step op).settledBy ops

section Answers

variable {s : BridgePool} {i : Nat} {tasks : List BridgeTask}

/-- One task is replaced. -/
theorem count_set (hi : i < tasks.length) (task : BridgeTask) (t : AgentPid × Nat) :
    ((tasks.set i task).filterMap unanswered).count t =
      (unanswered task).toList.count t + ((tasks.eraseIdx i).filterMap unanswered).count t := by
  rw [((List.set_perm_cons_eraseIdx hi task).filterMap _).count_eq, List.filterMap_cons]
  cases unanswered task <;> simp [List.count_cons]; omega

theorem count_tasks {task : BridgeTask} (hi : tasks[i]? = some task) (t : AgentPid × Nat) :
    (tasks.filterMap unanswered).count t =
      (unanswered task).toList.count t + ((tasks.eraseIdx i).filterMap unanswered).count t := by
  obtain ⟨hlt, rfl⟩ := List.getElem?_eq_some_iff.mp hi
  rw [← count_set hlt, List.set_getElem_self]

theorem settled_step (s : BridgePool) (op : PoolOp) (t : AgentPid × Nat) :
    (s.settled op ++ (s.step op).owed ++ s.accepted).count t =
      (s.owed ++ (s.step op).accepted).count t := by
  cases op with
  | submit pid op =>
      rw [step, submit]
      rcases Bridge.submit_cases s.bridge pid op with ⟨text, _, hsubmit, hsame⟩ |
        ⟨id, _, hsubmit, hrequests, _, hresponses⟩
      · simp [hsubmit, settled, owed, accepted, hsame.requests, hsame.responses]
      · simp [hsubmit, settled, owed, accepted, hrequests, hresponses, ticket, List.count_cons]
        omega
  | cancel pid =>
      have hsame := Bridge.sameChannels_cancel s.bridge pid
      simp [step, cancel, settled, owed, accepted, hsame.requests, hsame.responses]
  | drainResponses =>
      simp [step, settled, owed, accepted, Bridge.drainResponses, List.filterMap_map]
      omega
  | take =>
      rw [step, take]
      split
      · rfl
      · rename_i hrequests
        simp [settled, owed, accepted, hrequests, unanswered, List.count_cons]
        omega
  | start i =>
      rw [step, start]
      split
      · rename_i hi
        have hnew := count_set (List.getElem?_eq_some_iff.mp hi).1
        simp [settled, owed, accepted, count_tasks hi, hnew, unanswered]
      · rfl
  | send i result =>
      rw [step, send]
      split
      · rename_i hi
        have hnew := count_set (List.getElem?_eq_some_iff.mp hi).1
        split
        · rfl
        · simp [settled, owed, accepted, count_tasks hi, hnew, unanswered, ticket,
            List.count_cons]
          omega
      · rfl
  | release i =>
      rw [step, release]
      split
      · rename_i request hi
        have hsame := Bridge.sameChannels_release s.bridge request.sourcePid
        simp [settled, owed, accepted, count_tasks hi, unanswered, hsame.requests,
          hsame.responses]
      · rfl
  | fail i =>
      cases hi : s.tasks[i]? with
      | none =>
          have herase := List.eraseIdx_of_length_le (List.getElem?_eq_none_iff.mp hi)
          simp [step, settled, owed, accepted, hi, herase]
      | some task =>
          simp [step, settled, owed, accepted, hi, count_tasks hi]
          omega
  | disconnect => rfl

theorem settledBy_run (s : BridgePool) (ops : List PoolOp) :
    (s.settledBy ops ++ (ops.foldl step s).owed ++ s.accepted).Perm
      (s.owed ++ (ops.foldl step s).accepted) := by
  rw [List.perm_iff_count]
  intro t
  induction ops generalizing s with
  | nil => rfl
  | cons op ops ih =>
      have hstep := settled_step s op t
      have hrest := ih (s.step op)
      simp only [settledBy, List.foldl_cons, List.count_append] at hstep hrest ⊢
      omega

end Answers

/-- However submissions, workers and tasks interleave, each accepted operation is answered once,
to its process and under its id, if its task does not fail. -/
theorem each_operation_answered (ops : List PoolOp) :
    (create.settledBy ops ++ (ops.foldl step create).owed).Perm
      (ops.foldl step create).accepted := by
  simpa [create, accepted, owed, Bridge.create] using settledBy_run create ops

/-! ## The bridge of a pool -/

/-- The pool as the scheduler sees it. -/
def toBridge (s : BridgePool) : Bridge :=
  { s.bridge with running := s.tasks.map BridgeTask.request }

theorem toBridge_take (s : BridgePool) : s.take.toBridge = s.toBridge.workerStep .take := by
  unfold BridgePool.take Bridge.workerStep toBridge
  cases s.bridge.requests with
  | nil => rfl
  | cons request requests => simp

theorem release_running (bridge : Bridge) (pid : AgentPid) (running : List IoRequest) :
    { bridge.releaseCancellationSlot pid with running } =
      Bridge.releaseCancellationSlot { bridge with running } pid := by
  unfold Bridge.releaseCancellationSlot
  cases bridge.cancellation.lookup pid with
  | none => rfl
  | some entry =>
      dsimp only
      split <;> rfl

/-- A task that runs to its end is one answer of the bridge. -/
theorem toBridge_answer (hi : s.tasks[i]? = some ⟨request, .spawned⟩) (result : IoResult)
    (hroom : s.bridge.responses.length < Bridge.responseQueueSize) :
    (((s.start i).send i result).release i).toBridge =
      s.toBridge.workerStep (.answer i result) := by
  obtain ⟨hlt, _⟩ := List.getElem?_eq_some_iff.mp hi
  have hstart : s.start i = { s with
      tasks := s.tasks.set i ⟨request, .started (s.bridge.token request.sourcePid)⟩
      log := s.log ++ [.started request (s.bridge.token request.sourcePid)] } := by
    unfold BridgePool.start
    rw [hi]
  have hsend : (s.start i).send i result = { s.start i with
      tasks := s.tasks.set i ⟨request, .answered⟩
      bridge := { s.bridge with
        responses := s.bridge.responses ++
          [⟨request.correlationId, request.sourcePid, result⟩] } } := by
    have hroom' : ¬ s.bridge.responses.length ≥ Bridge.responseQueueSize := by omega
    rw [hstart]
    unfold BridgePool.send
    simp [hlt, hroom']
  have hrelease : ((s.start i).send i result).release i = { s.start i with
      tasks := s.tasks.eraseIdx i
      bridge := Bridge.releaseCancellationSlot { s.bridge with
        responses := s.bridge.responses ++
          [⟨request.correlationId, request.sourcePid, result⟩] } request.sourcePid } := by
    rw [hsend]
    unfold BridgePool.release
    simp [hlt, List.eraseIdx_set_eq]
  have hrunning : s.toBridge.running[i]? = some request := by
    simp [toBridge, hi]
  have herase : (s.tasks.eraseIdx i).map BridgeTask.request = s.toBridge.running.eraseIdx i := by
    simp [toBridge, List.eraseIdx_eq_take_drop_succ, List.map_take, List.map_drop]
  have hanswer : s.toBridge.workerStep (.answer i result) = Bridge.releaseCancellationSlot
      { s.bridge with
        running := s.toBridge.running.eraseIdx i
        responses := s.bridge.responses ++
          [⟨request.correlationId, request.sourcePid, result⟩] } request.sourcePid := by
    simp only [Bridge.workerStep, hrunning]
    exact if_neg (by dsimp only [toBridge]; omega)
  rw [hrelease, hanswer, ← herase]
  exact release_running _ _ _

end BridgePool

end Zeptobeam
