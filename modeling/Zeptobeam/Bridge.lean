/-
The I/O bridge as the scheduler sees it: a bounded channel of requests, the
requests that workers execute, a bounded channel of responses, and the
cancellation entries.  What a worker does with a request is a step of its own.
-/
import Zeptobeam.Process

namespace Zeptobeam

structure IoRequest where
  correlationId : Nat
  sourcePid : AgentPid
  op : IoOp

structure IoResponse where
  correlationId : Nat
  sourcePid : AgentPid
  result : IoResult

structure CancellationEntry where
  cancelled : Bool
  inFlight : Nat

/-- The state behind a `BridgeHandle`. -/
structure Bridge where
  requests : List IoRequest
  /-- Requests that workers have taken from the channel. -/
  running : List IoRequest
  responses : List IoResponse
  /-- A worker still holds the other end of the request channel. -/
  connected : Bool
  nextCorrelationId : Nat
  cancellation : AList fun _ : AgentPid => CancellationEntry
  destroyFailures : Nat
  busyRejections : Nat

namespace Bridge

def requestQueueSize : Nat := 1024

def responseQueueSize : Nat := 4096

/-- `create_bridge`. -/
def create : Bridge :=
  { requests := [], running := [], responses := [], connected := true,
    nextCorrelationId := 0, cancellation := ∅, destroyFailures := 0, busyRejections := 0 }

def reserveCancellationSlot (bridge : Bridge) (pid : AgentPid) : Bridge :=
  let entry := (bridge.cancellation.lookup pid).getD ⟨false, 0⟩
  { bridge with
    cancellation := bridge.cancellation.insert pid
      { entry with inFlight := entry.inFlight + 1 } }

def releaseCancellationSlot (bridge : Bridge) (pid : AgentPid) : Bridge :=
  match bridge.cancellation.lookup pid with
  | none => bridge
  | some entry =>
      if entry.inFlight > 1 then
        { bridge with
          cancellation := bridge.cancellation.insert pid
            { entry with inFlight := entry.inFlight - 1 } }
      else { bridge with cancellation := bridge.cancellation.erase pid }

def isAgentDestroy : IoOp → Bool
  | .agentDestroy _ => true
  | _ => false

def isAgentChat : IoOp → Bool
  | .agentChat _ => true
  | _ => false

/-- Give up a slot and count the failure. -/
def rejectSubmit (bridge : Bridge) (pid : AgentPid) (op : IoOp) (busy : Bool) : Bridge :=
  let bridge := if isAgentDestroy op then bridge else bridge.releaseCancellationSlot pid
  let bridge := if isAgentDestroy op then
    { bridge with destroyFailures := bridge.destroyFailures + 1 } else bridge
  if busy && isAgentChat op then
    { bridge with busyRejections := bridge.busyRejections + 1 }
  else bridge

def submit (bridge : Bridge) (pid : AgentPid) (op : IoOp) : Except String Nat × Bridge :=
  let bridge := if isAgentDestroy op then bridge else bridge.reserveCancellationSlot pid
  let correlationId := bridge.nextCorrelationId
  let bridge := { bridge with nextCorrelationId := correlationId + 1 }
  if bridge.connected = false then
    (.error "bridge worker disconnected", bridge.rejectSubmit pid op false)
  else if bridge.requests.length ≥ requestQueueSize then
    (.error "request queue full", bridge.rejectSubmit pid op true)
  else
    (.ok correlationId,
      { bridge with requests := bridge.requests ++ [⟨correlationId, pid, op⟩] })

def cancel (bridge : Bridge) (pid : AgentPid) : Bool × Bridge :=
  match bridge.cancellation.lookup pid with
  | none => (false, bridge)
  | some entry =>
      if entry.cancelled then (false, bridge)
      else
        (true, { bridge with
          cancellation := bridge.cancellation.insert pid { entry with cancelled := true } })

/-- The pending responses as messages, and the bridge without them. -/
def drainResponses (bridge : Bridge) : List (AgentPid × Message) × Bridge :=
  (bridge.responses.map fun response =>
      (response.sourcePid,
        .system (.ioResponse response.correlationId response.result)),
    { bridge with responses := [] })

/-! ## The workers -/

inductive WorkerStep where
  /-- A worker takes the next request from the channel. -/
  | take
  /-- The worker of the `i`-th running request answers it. -/
  | answer (i : Nat) (result : IoResult)
  /-- The last worker is gone. -/
  | disconnect

/-- A worker waits while the response channel is full. -/
def workerStep (bridge : Bridge) : WorkerStep → Bridge
  | .take =>
      match bridge.requests with
      | [] => bridge
      | request :: requests =>
          { bridge with requests, running := bridge.running ++ [request] }
  | .answer i result =>
      match bridge.running[i]? with
      | none => bridge
      | some request =>
          if bridge.responses.length ≥ responseQueueSize then bridge
          else
            releaseCancellationSlot
              { bridge with
                running := bridge.running.eraseIdx i
                responses := bridge.responses ++
                  [⟨request.correlationId, request.sourcePid, result⟩] }
              request.sourcePid
  | .disconnect => { bridge with connected := false }

/-- The operation with this correlation id was accepted from the process, and its
response was not drained yet. -/
def Pending (bridge : Bridge) (pid : AgentPid) (correlationId : Nat) : Prop :=
  (∃ request ∈ bridge.requests ++ bridge.running,
    request.sourcePid = pid ∧ request.correlationId = correlationId) ∨
  ∃ response ∈ bridge.responses,
    response.sourcePid = pid ∧ response.correlationId = correlationId

/-! ## What stays pending -/

variable {bridge bridge' : Bridge} {pid : AgentPid} {correlationId : Nat}

/-- The two bridges differ in cancellations and counters only. -/
structure SameChannels (bridge bridge' : Bridge) : Prop where
  requests : bridge'.requests = bridge.requests
  running : bridge'.running = bridge.running
  responses : bridge'.responses = bridge.responses

theorem SameChannels.trans {bridge'' : Bridge} (h : SameChannels bridge bridge')
    (h' : SameChannels bridge' bridge'') : SameChannels bridge bridge'' :=
  ⟨h'.requests.trans h.requests, h'.running.trans h.running,
    h'.responses.trans h.responses⟩

theorem SameChannels.pending (h : SameChannels bridge bridge')
    (hpending : bridge.Pending pid correlationId) : bridge'.Pending pid correlationId := by
  rwa [Pending, h.requests, h.running, h.responses]

theorem sameChannels_reserve (bridge : Bridge) (pid : AgentPid) :
    SameChannels bridge (bridge.reserveCancellationSlot pid) :=
  ⟨rfl, rfl, rfl⟩

theorem sameChannels_release (bridge : Bridge) (pid : AgentPid) :
    SameChannels bridge (bridge.releaseCancellationSlot pid) := by
  unfold releaseCancellationSlot
  split
  · exact ⟨rfl, rfl, rfl⟩
  · split
    · exact ⟨rfl, rfl, rfl⟩
    · exact ⟨rfl, rfl, rfl⟩

theorem sameChannels_reject (bridge : Bridge) (pid : AgentPid) (op : IoOp) (busy : Bool) :
    SameChannels bridge (bridge.rejectSubmit pid op busy) := by
  have hreleased := sameChannels_release bridge pid
  unfold rejectSubmit
  cases isAgentDestroy op with
  | true =>
      dsimp only [if_true]
      split
      · exact ⟨rfl, rfl, rfl⟩
      · exact ⟨rfl, rfl, rfl⟩
  | false =>
      dsimp only [Bool.false_eq_true, if_false]
      split
      · exact hreleased.trans ⟨rfl, rfl, rfl⟩
      · exact hreleased

theorem sameChannels_cancel (bridge : Bridge) (pid : AgentPid) :
    SameChannels bridge (bridge.cancel pid).2 := by
  unfold cancel
  split
  · exact ⟨rfl, rfl, rfl⟩
  · split
    · exact ⟨rfl, rfl, rfl⟩
    · exact ⟨rfl, rfl, rfl⟩

/-- A submission is refused, or its request goes to the end of the channel. -/
theorem submit_cases (bridge : Bridge) (source : AgentPid) (op : IoOp) :
    (∃ text bridge', bridge.submit source op = (.error text, bridge') ∧
      SameChannels bridge bridge') ∨
    ∃ id bridge', bridge.submit source op = (.ok id, bridge') ∧
      bridge'.requests = bridge.requests ++ [⟨id, source, op⟩] ∧
      bridge'.running = bridge.running ∧ bridge'.responses = bridge.responses := by
  have hreserved : SameChannels bridge
      (if isAgentDestroy op then bridge else bridge.reserveCancellationSlot source) := by
    split
    · exact ⟨rfl, rfl, rfl⟩
    · exact sameChannels_reserve bridge source
  unfold submit
  generalize (if isAgentDestroy op then bridge else bridge.reserveCancellationSlot source) =
    reserved at hreserved
  dsimp only
  have hcounted : SameChannels bridge
      { reserved with nextCorrelationId := reserved.nextCorrelationId + 1 } :=
    hreserved.trans ⟨rfl, rfl, rfl⟩
  split
  · exact .inl ⟨_, _, rfl, hcounted.trans (sameChannels_reject _ source op false)⟩
  · split
    · exact .inl ⟨_, _, rfl, hcounted.trans (sameChannels_reject _ source op true)⟩
    · refine .inr ⟨_, _, rfl, ?_, hreserved.running, hreserved.responses⟩
      rw [hreserved.requests]

theorem Pending.submit (h : bridge.Pending pid correlationId) (source : AgentPid)
    (op : IoOp) : (bridge.submit source op).2.Pending pid correlationId := by
  rcases submit_cases bridge source op with ⟨text, bridge', hsubmit, hsame⟩ |
    ⟨id, bridge', hsubmit, hrequests, hrunning, hresponses⟩
  · rw [hsubmit]
    exact hsame.pending h
  · rw [hsubmit]
    rcases h with ⟨request, hrequest, hid⟩ | hresponse
    · refine .inl ⟨request, ?_, hid⟩
      simp only [hrequests, hrunning, List.mem_append] at hrequest ⊢
      rcases hrequest with hrequest | hrequest
      · exact .inl (.inl hrequest)
      · exact .inr hrequest
    · exact .inr (hresponses ▸ hresponse)

theorem pending_of_submit {source : AgentPid} {op : IoOp}
    (h : bridge.submit source op = (.ok correlationId, bridge')) :
    bridge'.Pending source correlationId := by
  rcases submit_cases bridge source op with ⟨text, _, hsubmit, _⟩ |
    ⟨id, _, hsubmit, hrequests, _, _⟩
  · rw [h] at hsubmit
    simp at hsubmit
  · rw [h] at hsubmit
    obtain ⟨rfl, rfl⟩ : correlationId = id ∧ bridge' = _ := by simpa using hsubmit
    exact .inl ⟨⟨correlationId, source, op⟩, by simp [hrequests], rfl, rfl⟩

/-- A worker only moves a request on its way to the responses. -/
theorem Pending.workerStep (h : bridge.Pending pid correlationId) (step : WorkerStep) :
    (bridge.workerStep step).Pending pid correlationId := by
  cases step with
  | take =>
      simp only [Bridge.workerStep]
      split
      · exact h
      · rename_i first rest hrequests
        rcases h with ⟨request, hrequest, hid⟩ | hresponse
        · refine .inl ⟨request, ?_, hid⟩
          simp only [hrequests, List.mem_append, List.mem_cons, List.not_mem_nil,
            or_false] at hrequest ⊢
          rcases hrequest with (hfirst | hrest) | hrunning
          · exact .inr (.inr hfirst)
          · exact .inl hrest
          · exact .inr (.inl hrunning)
        · exact .inr hresponse
  | answer i result =>
      simp only [Bridge.workerStep]
      split
      · exact h
      · rename_i answered hanswered
        split
        · exact h
        · apply (sameChannels_release _ answered.sourcePid).pending
          rcases h with ⟨request, hrequest, hid⟩ | ⟨response, hresponse, hid⟩
          · rcases List.mem_append.mp hrequest with hqueued | hrunning
            · exact .inl ⟨request, List.mem_append_left _ hqueued, hid⟩
            · obtain ⟨j, hj, rfl⟩ := List.mem_iff_getElem.mp hrunning
              by_cases hji : j = i
              · subst hji
                obtain rfl : bridge.running[j] = answered := by
                  rw [List.getElem?_eq_getElem hj] at hanswered
                  exact Option.some.inj hanswered
                exact .inr ⟨_, List.mem_append_right _ List.mem_cons_self, hid⟩
              · refine .inl ⟨bridge.running[j], List.mem_append_right _ ?_, hid⟩
                exact List.mem_eraseIdx_iff_getElem.mpr ⟨j, hj, hji, rfl⟩
          · exact .inr ⟨response, List.mem_append_left _ hresponse, hid⟩
  | disconnect => exact h

/-- What is not pending any more is among the messages drained. -/
theorem Pending.drainResponses (h : bridge.Pending pid correlationId) :
    bridge.drainResponses.2.Pending pid correlationId ∨
      pid ∈ bridge.drainResponses.1.map Prod.fst := by
  rcases h with hrequest | ⟨response, hresponse, rfl, _⟩
  · exact .inl (.inl hrequest)
  · right
    simp only [Bridge.drainResponses, List.map_map, List.mem_map]
    exact ⟨response, hresponse, rfl⟩

end Bridge

end Zeptobeam
