/-
The agent worker: prompts become chat requests one at a time, and what comes in while a
request is in flight waits in a list.  What the worker logs is left out.
-/
import Zeptobeam.Types
import Zeptobeam.Lib.GuardedRun
import Mathlib.Data.List.Nodup

namespace Zeptobeam

open GuardedRun

/-- `IoOp::AgentChat`. -/
structure AgentChat where
  provider : String
  model : Option String
  systemPrompt : Option String
  prompt : String
  tools : Option (List String)
  maxIterations : Option Nat
  timeoutMs : Option Nat
deriving DecidableEq

/-- What the worker tells the scheduler to do. -/
inductive WorkerAction where
  | «continue»
  | ioRequest (op : AgentChat)
deriving DecidableEq

structure AgentWorkerState where
  busy : Bool
  lastRequester : Option AgentPid
  pendingMessages : List Message
deriving DecidableEq

structure AgentWorkerBehavior where
  name : String
  provider : String
  model : Option String
  systemPrompt : Option String
  tools : List String
  maxIterations : Option Nat
  timeoutMs : Option Nat

namespace AgentWorkerBehavior

variable (behavior : AgentWorkerBehavior)

def makeChatOp (prompt : String) : AgentChat where
  provider := behavior.provider
  model := behavior.model
  systemPrompt := behavior.systemPrompt
  prompt := prompt
  tools := if behavior.tools = [] then none else some behavior.tools
  maxIterations := behavior.maxIterations
  timeoutMs := behavior.timeoutMs

def init : AgentWorkerState := ⟨false, none, []⟩

/-- The prompt of a JSON message; a missing one and other values read as empty. -/
def jsonPrompt (value : Json) : String :=
  ((value.get? "prompt").bind Json.toString?).getD ""

def handleMessage (msg : Message) (s : AgentWorkerState) : WorkerAction × AgentWorkerState :=
  match msg with
  | .system (.ioResponse _ _) =>
      match _hlast : s.pendingMessages.getLast? with
      | some next =>
          handleMessage next
            { s with busy := false, pendingMessages := s.pendingMessages.dropLast }
      | none => (.continue, { s with busy := false })
  | .text prompt =>
      if s.busy then
        (.continue, { s with pendingMessages := s.pendingMessages ++ [msg] })
      else (.ioRequest (behavior.makeChatOp prompt), { s with busy := true })
  | .json value =>
      if jsonPrompt value = "" then (.continue, s)
      else if s.busy then
        (.continue, { s with pendingMessages := s.pendingMessages ++ [msg] })
      else (.ioRequest (behavior.makeChatOp (jsonPrompt value)), { s with busy := true })
  | _ => (.continue, s)
termination_by s.pendingMessages.length
decreasing_by
  rw [List.length_dropLast]
  have hpending := List.length_pos_of_mem (List.mem_of_getLast? _hlast)
  omega

/-! ## What is observed of a worker -/

/-- The request a message asks for, if it has a prompt. -/
def requestOf : Message → Option AgentChat
  | .text prompt => some (behavior.makeChatOp prompt)
  | .json value =>
      if jsonPrompt value = "" then none else some (behavior.makeChatOp (jsonPrompt value))
  | .system _ => none

def isIoResponse : Message → Bool
  | .system (.ioResponse _ _) => true
  | _ => false

/-- A worker with the history of its messages, which are numbered as they arrive: the prompts
that arrived, those that wait, and the requests that were submitted. -/
structure WorkerTrace where
  state : AgentWorkerState
  arrivals : Nat
  accepted : List (Nat × AgentChat)
  waiting : List (Nat × AgentChat)
  submitted : List (Nat × AgentChat)
  inFlight : Nat
deriving DecidableEq

def WorkerTrace.start : WorkerTrace := ⟨init, 0, [], [], [], 0⟩

/-- One more message.  A response answers the request in flight; a request behind a response is
for the message that left the list, any other one for the message that came in. -/
def observe (t : WorkerTrace) (msg : Message) : WorkerTrace :=
  let (action, state) := behavior.handleMessage msg t.state
  let asked := (behavior.requestOf msg).toList.map fun op => (t.arrivals, op)
  let number :=
    if isIoResponse msg then (t.waiting.getLast?.map Prod.fst).getD t.arrivals else t.arrivals
  let answered := if isIoResponse msg then t.inFlight - 1 else t.inFlight
  { state
    arrivals := t.arrivals + 1
    accepted := t.accepted ++ asked
    waiting := (t.waiting ++ asked).take state.pendingMessages.length
    submitted := t.submitted ++ (match action with
      | .ioRequest op => [(number, op)]
      | .continue => [])
    inFlight := match action with
      | .ioRequest _ => answered + 1
      | .continue => answered }

/-- At most one request is in flight, the requests are those of the prompts in the order these
arrived in, and when none is in flight every prompt has had its request. -/
structure ServesInOrder (t : WorkerTrace) : Prop where
  single : t.inFlight ≤ 1
  order : t.submitted <+: t.accepted
  complete : t.inFlight = 0 → t.submitted = t.accepted

/-- A response does not come while two or more prompts wait. -/
def OneWaits (t : WorkerTrace) (msg : Message) : Prop :=
  isIoResponse msg = true → t.state.pendingMessages.length ≤ 1

/-! ## One message -/

variable {behavior} {s : AgentWorkerState} {msg : Message} {op : AgentChat}

theorem handleMessage_of_busy (hop : behavior.requestOf msg = some op) (hbusy : s.busy = true) :
    behavior.handleMessage msg s =
      (.continue, { s with pendingMessages := s.pendingMessages ++ [msg] }) := by
  cases msg with
  | text prompt => rw [handleMessage, if_pos hbusy]
  | json value =>
      rw [requestOf] at hop
      have hprompt : ¬ jsonPrompt value = "" := fun hnone => by simp [hnone] at hop
      rw [handleMessage, if_neg hprompt, if_pos hbusy]
  | system msg => contradiction

theorem handleMessage_of_idle (hop : behavior.requestOf msg = some op) (hidle : s.busy = false) :
    behavior.handleMessage msg s = (.ioRequest op, { s with busy := true }) := by
  cases msg with
  | text prompt =>
      obtain rfl : behavior.makeChatOp prompt = op := Option.some.inj hop
      rw [handleMessage, if_neg (by simp [hidle])]
  | json value =>
      rw [requestOf] at hop
      have hprompt : ¬ jsonPrompt value = "" := fun hnone => by simp [hnone] at hop
      rw [if_neg hprompt] at hop
      cases hop
      rw [handleMessage, if_neg hprompt, if_neg (by simp [hidle])]
  | system msg => contradiction

theorem handleMessage_of_none (hnone : behavior.requestOf msg = none)
    (hresponse : isIoResponse msg = false) : behavior.handleMessage msg s = (.continue, s) := by
  cases msg with
  | text prompt => contradiction
  | json value =>
      rw [requestOf] at hnone
      have hprompt : jsonPrompt value = "" := by
        by_contra hprompt
        simp [hprompt] at hnone
      rw [handleMessage, if_pos hprompt]
  | system msg =>
      cases msg with
      | ioResponse correlationId result => contradiction
      | _ => rw [handleMessage] <;> simp

theorem handleMessage_response_last {next : Message} {front : List Message}
    (hresponse : isIoResponse msg = true) (hpending : s.pendingMessages = front ++ [next]) :
    behavior.handleMessage msg s =
      behavior.handleMessage next { s with busy := false, pendingMessages := front } := by
  have hlast : s.pendingMessages.getLast? = some next := by rw [hpending, List.getLast?_concat]
  have hfront : s.pendingMessages.dropLast = front := by rw [hpending, List.dropLast_concat]
  cases msg with
  | text prompt => contradiction
  | json value => contradiction
  | system msg =>
      cases msg with
      | ioResponse correlationId result =>
          rw [handleMessage]
          split
          · rename_i other hother
            obtain rfl : other = next := Option.some.inj (hother.symm.trans hlast)
            rw [hfront]
          · simp_all
      | _ => contradiction

theorem handleMessage_response_nil (hresponse : isIoResponse msg = true)
    (hpending : s.pendingMessages = []) :
    behavior.handleMessage msg s = (.continue, { s with busy := false }) := by
  cases msg with
  | text prompt => contradiction
  | json value => contradiction
  | system msg =>
      cases msg with
      | ioResponse correlationId result =>
          rw [handleMessage]
          split
          · simp_all
          · rfl
      | _ => contradiction

/-! ## One message of a history -/

/-- What the list of the worker holds are the prompts that wait, and nothing waits behind an
idle worker. -/
structure Served (behavior : AgentWorkerBehavior) (t : WorkerTrace) : Prop where
  accepted : t.accepted = t.submitted ++ t.waiting
  pending : t.state.pendingMessages.map behavior.requestOf = t.waiting.map fun e => some e.2
  inFlight : t.inFlight = if t.state.busy then 1 else 0
  idle : t.state.busy = false → t.state.pendingMessages = []
  numbered : (t.accepted.map Prod.fst).Nodup
  arrived : ∀ e ∈ t.accepted, e.1 < t.arrivals

variable {t : WorkerTrace}

theorem not_isIoResponse (hop : behavior.requestOf msg = some op) :
    isIoResponse msg = false := by
  cases msg with
  | system msg => contradiction
  | _ => rfl

theorem requestOf_response (hresponse : isIoResponse msg = true) :
    behavior.requestOf msg = none := by
  cases msg with
  | system msg => rfl
  | _ => contradiction

namespace Served

theorem length_pending (h : Served behavior t) :
    t.state.pendingMessages.length = t.waiting.length := by
  simpa using congrArg List.length h.pending

theorem waiting_nil (h : Served behavior t) (hidle : t.state.busy = false) : t.waiting = [] := by
  have hlength := h.length_pending
  rw [h.idle hidle] at hlength
  exact List.length_eq_zero_iff.mp hlength.symm

theorem observe_busy (h : Served behavior t) (hop : behavior.requestOf msg = some op)
    (hbusy : t.state.busy = true) :
    behavior.observe t msg =
      { t with
        state := { t.state with pendingMessages := t.state.pendingMessages ++ [msg] }
        arrivals := t.arrivals + 1
        accepted := t.accepted ++ [(t.arrivals, op)]
        waiting := t.waiting ++ [(t.arrivals, op)] } := by
  have htake : (t.waiting ++ [(t.arrivals, op)]).take (t.state.pendingMessages.length + 1) =
      t.waiting ++ [(t.arrivals, op)] := by
    apply List.take_of_length_le
    simp [h.length_pending]
  simp [observe, handleMessage_of_busy hop hbusy, hop, not_isIoResponse hop, htake]

theorem observe_idle (h : Served behavior t) (hop : behavior.requestOf msg = some op)
    (hidle : t.state.busy = false) :
    behavior.observe t msg =
      { t with
        state := { t.state with busy := true }
        arrivals := t.arrivals + 1
        accepted := t.accepted ++ [(t.arrivals, op)]
        submitted := t.submitted ++ [(t.arrivals, op)]
        inFlight := t.inFlight + 1 } := by
  simp [observe, handleMessage_of_idle hop hidle, hop, not_isIoResponse hop, h.idle hidle,
    h.waiting_nil hidle]

theorem observe_none (h : Served behavior t) (hnone : behavior.requestOf msg = none)
    (hresponse : isIoResponse msg = false) :
    behavior.observe t msg = { t with arrivals := t.arrivals + 1 } := by
  simp [observe, handleMessage_of_none hnone hresponse, hnone, hresponse, h.length_pending]

theorem observe_response_nil (h : Served behavior t) (hresponse : isIoResponse msg = true)
    (hpending : t.state.pendingMessages = []) :
    behavior.observe t msg =
      { t with
        state := { t.state with busy := false }
        arrivals := t.arrivals + 1
        inFlight := t.inFlight - 1 } := by
  have hwaiting : t.waiting = [] := by
    apply List.length_eq_zero_iff.mp
    rw [← h.length_pending, hpending]
    rfl
  simp [observe, handleMessage_response_nil hresponse hpending, requestOf_response hresponse,
    hresponse, hpending, hwaiting]

/-- A response with prompts waiting submits the one that came last. -/
theorem observe_response_last (h : Served behavior t) (hresponse : isIoResponse msg = true)
    {front : List (Nat × AgentChat)} {e : Nat × AgentChat} (hwaiting : t.waiting = front ++ [e]) :
    ∃ messages, messages.map behavior.requestOf = front.map (fun e => some e.2) ∧
      behavior.observe t msg =
        { t with
          state := { t.state with busy := true, pendingMessages := messages }
          arrivals := t.arrivals + 1
          waiting := front
          submitted := t.submitted ++ [e]
          inFlight := t.inFlight - 1 + 1 } := by
  have hpending := h.pending
  rw [hwaiting, List.map_append] at hpending
  obtain ⟨messages, last, hsplit, hfront, hlast⟩ := List.map_eq_append_iff.mp hpending
  obtain ⟨next, rfl, hnext⟩ := List.map_eq_singleton_iff.mp hlast
  refine ⟨messages, hfront, ?_⟩
  have hlength : messages.length = front.length := by simpa using congrArg List.length hfront
  have hhandle : behavior.handleMessage msg t.state = behavior.handleMessage next
      { t.state with busy := false, pendingMessages := messages } :=
    handleMessage_response_last hresponse hsplit
  rw [handleMessage_of_idle hnext rfl] at hhandle
  simp [observe, hhandle, requestOf_response hresponse, hresponse, hwaiting, hlength]

theorem start : Served behavior .start :=
  ⟨rfl, rfl, rfl, fun _ => rfl, List.nodup_nil, fun _ he => absurd he List.not_mem_nil⟩

/-- A number that was never given is given to the next prompt. -/
theorem numbered_concat (h : Served behavior t) (op : AgentChat) :
    ((t.accepted ++ [(t.arrivals, op)]).map Prod.fst).Nodup := by
  rw [List.map_append, List.nodup_append]
  refine ⟨h.numbered, List.nodup_singleton _, ?_⟩
  intro number hnumber other hother
  obtain ⟨e, he, rfl⟩ := List.mem_map.mp hnumber
  rw [List.mem_singleton.mp hother]
  exact Nat.ne_of_lt (h.arrived e he)

theorem arrived_concat (h : Served behavior t) (op : AgentChat) :
    ∀ e ∈ t.accepted ++ [(t.arrivals, op)], e.1 < t.arrivals + 1 := by
  intro e he
  rcases List.mem_append.mp he with hold | hnew
  · exact Nat.lt_succ_of_lt (h.arrived e hold)
  · rw [List.mem_singleton.mp hnew]
    exact Nat.lt_succ_self t.arrivals

theorem observe (h : Served behavior t) (hone : OneWaits t msg) :
    Served behavior (behavior.observe t msg) := by
  have harrived : ∀ e ∈ t.accepted, e.1 < t.arrivals + 1 :=
    fun e he => Nat.lt_succ_of_lt (h.arrived e he)
  cases hop : behavior.requestOf msg with
  | some op =>
      cases hbusy : t.state.busy with
      | true =>
          rw [h.observe_busy hop hbusy]
          refine ⟨?_, ?_, h.inFlight, ?_, h.numbered_concat op, h.arrived_concat op⟩
          · rw [h.accepted, List.append_assoc]
          · rw [List.map_append, List.map_append, h.pending, List.map_singleton, hop]
            rfl
          · intro hidle
            rw [hbusy] at hidle
            contradiction
      | false =>
          rw [h.observe_idle hop hbusy]
          refine ⟨?_, h.pending, ?_, nofun, h.numbered_concat op, h.arrived_concat op⟩
          · rw [h.accepted, h.waiting_nil hbusy, List.append_nil, List.append_nil]
          · rw [h.inFlight, hbusy]
            rfl
  | none =>
      cases hresponse : isIoResponse msg with
      | false =>
          rw [h.observe_none hop hresponse]
          exact ⟨h.accepted, h.pending, h.inFlight, h.idle, h.numbered, harrived⟩
      | true =>
          have hlength := h.length_pending
          cases hwaiting : t.waiting with
          | nil =>
              rw [hwaiting] at hlength
              have hpending := List.length_eq_zero_iff.mp hlength
              rw [h.observe_response_nil hresponse hpending]
              refine ⟨h.accepted, h.pending, ?_, fun _ => hpending, h.numbered, harrived⟩
              cases hbusy : t.state.busy <;> simp [h.inFlight, hbusy]
          | cons e rest =>
              -- by the guard it is the only one that waits
              have hrest : rest = [] := by
                have hle := hone hresponse
                rw [hlength, hwaiting, List.length_cons] at hle
                exact List.length_eq_zero_iff.mp (by omega)
              have hsingle : t.waiting = [] ++ [e] := by rw [hwaiting, hrest]; rfl
              obtain ⟨messages, hmessages, hobserve⟩ :=
                h.observe_response_last hresponse hsingle
              rw [hobserve]
              refine ⟨?_, hmessages, ?_, nofun, h.numbered, harrived⟩
              · rw [h.accepted, hsingle, List.nil_append, List.append_nil]
              · cases hbusy : t.state.busy <;> simp [h.inFlight, hbusy]

theorem servesInOrder (h : Served behavior t) : ServesInOrder t := by
  refine ⟨?_, ?_, ?_⟩
  · rw [h.inFlight]
    split <;> omega
  · rw [h.accepted]
    exact List.prefix_append _ _
  · intro hnone
    have hidle : t.state.busy = false := by
      by_contra hbusy
      rw [h.inFlight, if_pos (by simpa using hbusy)] at hnone
      contradiction
    rw [h.accepted, h.waiting_nil hidle, List.append_nil]

/-- With two prompts waiting, the one that is taken is not the first. -/
theorem not_servesInOrder (h : Served behavior t) (hmany : ¬ OneWaits t msg) :
    ¬ ServesInOrder (behavior.observe t msg) := by
  rw [OneWaits, Classical.not_imp, Nat.not_le, h.length_pending] at hmany
  obtain ⟨hresponse, hmany⟩ := hmany
  cases hwaiting : t.waiting with
  | nil =>
      rw [hwaiting] at hmany
      contradiction
  | cons e rest =>
      rcases List.eq_nil_or_concat rest with rfl | ⟨middle, last, rfl⟩
      · rw [hwaiting] at hmany
        exact absurd hmany (Nat.lt_irrefl 1)
      · have hsplit : t.waiting = (e :: middle) ++ [last] := by rw [hwaiting]; simp
        obtain ⟨messages, -, hobserve⟩ := h.observe_response_last hresponse hsplit
        intro horder
        have hfront := horder.order
        rw [hobserve] at hfront
        change t.submitted ++ [last] <+: t.accepted at hfront
        have hnumbered := h.numbered
        rw [h.accepted, hwaiting] at hfront hnumbered
        obtain ⟨rfl, -⟩ := List.cons_prefix_cons.mp ((List.prefix_append_right_inj _).mp hfront)
        rw [List.map_append, List.nodup_append] at hnumbered
        have htwice := hnumbered.2.1
        simp at htwice

end Served

/-- The prompts are served in order in every state of a run exactly if no response comes while
two or more of them wait. -/
theorem servesInOrder_iff (behavior : AgentWorkerBehavior) (messages : List Message) :
    Throughout behavior.observe ServesInOrder .start messages ↔
      Guarded behavior.observe OneWaits .start messages :=
  throughout_iff_guarded OneWaits ServesInOrder (Served.start : Served behavior .start)
    (fun _ _ h hone => h.observe hone) (fun _ h => h.servesInOrder)
    (fun _ _ h hmany => h.not_servesInOrder hmany) messages

/-- A worker with a name and a provider only. -/
def plainWorker : AgentWorkerBehavior := ⟨"worker", "openrouter", none, none, [], none, none⟩

/-- Three prompts, and the response to the first one. -/
def threePrompts : List Message :=
  [.text "a", .text "b", .text "c", .system (.ioResponse 1 (.ok .null))]

/-- The third prompt is submitted before the second one. -/
theorem not_servesInOrder_three :
    ¬ Throughout plainWorker.observe ServesInOrder .start threePrompts ∧
      ((threePrompts.foldl plainWorker.observe .start).submitted.map fun e => e.2.prompt) =
        ["a", "c"] := by
  have hsubmitted : (threePrompts.foldl plainWorker.observe .start).submitted =
      [(0, plainWorker.makeChatOp "a"), (2, plainWorker.makeChatOp "c")] := by
    decide +kernel
  have haccepted : (threePrompts.foldl plainWorker.observe .start).accepted =
      [(0, plainWorker.makeChatOp "a"), (1, plainWorker.makeChatOp "b"),
        (2, plainWorker.makeChatOp "c")] := by
    decide +kernel
  constructor
  · intro h
    have horder := (h threePrompts List.prefix_rfl).order
    rw [hsubmitted, haccepted] at horder
    exact absurd horder (by decide)
  · rw [hsubmitted]
    rfl

end AgentWorkerBehavior

end Zeptobeam
