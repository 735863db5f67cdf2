/-
The values agents exchange: pids, exit reasons, system messages, and the JSON
the derived serializers give them.  The `u64` numbers of the source are `Nat`.
The runtime's error type and the access types of tables stand here too.
-/
import Zeptobeam.SerdeJson
import Mathlib.Algebra.Ring.Nat

namespace Zeptobeam

abbrev AgentPid := Nat

abbrev MonitorRef := Nat

/-- The first pid, `0x8000_0000`, keeps agents apart from BEAM processes. -/
def firstAgentPid : AgentPid := 0x80000000

/-- The errors of the runtime.  The text stops where the source puts in the text of
an underlying I/O or parse error, which comes from outside. -/
inductive AgentRtError where
  | config (text : String)
  | checkpoint (text : String)
  | checkpointIo (text : String)
  | serialization (text : String)
  | bridge (text : String)
  | server (text : String)
  | shutdown (text : String)
  | ets (text : String)
  | durableMailbox (text : String)
  | hotCode (text : String)
  | release (text : String)
deriving DecidableEq, Repr

/-- The text an error is displayed with. -/
def AgentRtError.display : AgentRtError → String
  | .config text => s!"config: {text}"
  | .checkpoint text => s!"checkpoint: {text}"
  | .checkpointIo text => s!"checkpoint IO: {text}"
  | .serialization text => s!"serialization: {text}"
  | .bridge text => s!"bridge: {text}"
  | .server text => s!"server: {text}"
  | .shutdown text => s!"shutdown: {text}"
  | .ets text => s!"ets: {text}"
  | .durableMailbox text => s!"durable mailbox: {text}"
  | .hotCode text => s!"hot code: {text}"
  | .release text => s!"release: {text}"

/-- Reason for process termination. -/
inductive Reason where
  | normal
  | shutdown
  | custom (text : String)
deriving DecidableEq, Repr

/-- Result of an asynchronous I/O operation. -/
inductive IoResult where
  | ok (value : Json)
  | error (text : String)
  | timeout
deriving DecidableEq

/-- System-level messages. -/
inductive SystemMsg where
  | exit («from» : AgentPid) (reason : Reason)
  | ioResponse (correlationId : Nat) (result : IoResult)
  | spawnResult (childPid : AgentPid) (monitorRef : Option MonitorRef)
  | down (monitorRef : MonitorRef) (pid : AgentPid) (reason : Reason)
  | receiveTimeout
deriving DecidableEq

/-- Messages passed between agent processes. -/
inductive Message where
  | text (value : String)
  | json (value : Json)
  | system (msg : SystemMsg)
deriving DecidableEq

namespace Reason

def toJson : Reason → Json
  | .normal => .str "Normal"
  | .shutdown => .str "Shutdown"
  | .custom text => .obj [("Custom", .str text)]

def fromJson : Json → Option Reason
  | .str tag =>
      if tag = "Normal" then some .normal
      else if tag = "Shutdown" then some .shutdown
      else none
  | .obj [(tag, content)] =>
      if tag = "Custom" then content.toString?.map .custom else none
  | _ => none

@[simp]
theorem fromJson_toJson (reason : Reason) : fromJson reason.toJson = some reason := by
  cases reason <;> simp [toJson, fromJson, Json.toString?]

end Reason

namespace IoResult

def toJson : IoResult → Json
  | .ok value => .obj [("Ok", value)]
  | .error text => .obj [("Error", .str text)]
  | .timeout => .str "Timeout"

def fromJson : Json → Option IoResult
  | .str tag => if tag = "Timeout" then some .timeout else none
  | .obj [(tag, content)] =>
      if tag = "Ok" then some (.ok content)
      else if tag = "Error" then content.toString?.map .error
      else none
  | _ => none

@[simp]
theorem fromJson_toJson (result : IoResult) : fromJson result.toJson = some result := by
  cases result <;> simp [toJson, fromJson, Json.toString?]

end IoResult

namespace SystemMsg

def toJson : SystemMsg → Json
  | .exit pid reason =>
      .obj [("Exit", .obj [("from", .ofNat pid), ("reason", reason.toJson)])]
  | .ioResponse correlationId result =>
      .obj [("IoResponse", .obj [("correlation_id", .ofNat correlationId),
        ("result", result.toJson)])]
  | .spawnResult childPid monitorRef =>
      .obj [("SpawnResult", .obj [("child_pid", .ofNat childPid),
        ("monitor_ref", monitorRef.elim .null .ofNat)])]
  | .down monitorRef pid reason =>
      .obj [("Down", .obj [("monitor_ref", .ofNat monitorRef), ("pid", .ofNat pid),
        ("reason", reason.toJson)])]
  | .receiveTimeout => .str "ReceiveTimeout"

def fromJson : Json → Option SystemMsg
  | .str tag => if tag = "ReceiveTimeout" then some .receiveTimeout else none
  | .obj [(tag, .obj fields)] =>
      if tag = "Exit" then do
        let pid ← (← Json.field? fields "from").toNat?
        let reason ← Reason.fromJson (← Json.field? fields "reason")
        some (.exit pid reason)
      else if tag = "IoResponse" then do
        let correlationId ← (← Json.field? fields "correlation_id").toNat?
        let result ← IoResult.fromJson (← Json.field? fields "result")
        some (.ioResponse correlationId result)
      else if tag = "SpawnResult" then do
        let childPid ← (← Json.field? fields "child_pid").toNat?
        match ← Json.optionField? fields "monitor_ref" with
        | none => some (.spawnResult childPid none)
        | some value => do some (.spawnResult childPid (some (← value.toNat?)))
      else if tag = "Down" then do
        let monitorRef ← (← Json.field? fields "monitor_ref").toNat?
        let pid ← (← Json.field? fields "pid").toNat?
        let reason ← Reason.fromJson (← Json.field? fields "reason")
        some (.down monitorRef pid reason)
      else none
  | _ => none

@[simp]
theorem fromJson_toJson (msg : SystemMsg) : fromJson msg.toJson = some msg := by
  cases msg with
  | exit pid reason => simp [toJson, fromJson, Json.field?]
  | ioResponse correlationId result => simp [toJson, fromJson, Json.field?]
  | spawnResult childPid monitorRef =>
      cases monitorRef with
      | none => simp [toJson, fromJson, Json.field?, Json.optionField?]
      | some ref =>
          simp [toJson, fromJson, Json.field?, Json.optionField?, Json.ofNat,
            Json.toNat?]
  | down monitorRef pid reason => simp [toJson, fromJson, Json.field?]
  | receiveTimeout => simp [toJson, fromJson]

end SystemMsg

namespace Message

def toJson : Message → Json
  | .text value => .obj [("Text", .str value)]
  | .json value => .obj [("Json", value)]
  | .system msg => .obj [("System", msg.toJson)]

def fromJson : Json → Option Message
  | .obj [(tag, content)] =>
      if tag = "Text" then content.toString?.map .text
      else if tag = "Json" then some (.json content)
      else if tag = "System" then (SystemMsg.fromJson content).map .system
      else none
  | _ => none

/-- Every message survives the trip through JSON. -/
@[simp]
theorem fromJson_toJson (msg : Message) : fromJson msg.toJson = some msg := by
  cases msg <;> simp [toJson, fromJson, Json.toString?]

end Message

/-! ## Tables -/

/-- What others than the owner of a table may do: all, read, nothing. -/
inductive AccessType where
  | «public»
  | «protected»
  | «private»
deriving DecidableEq

end Zeptobeam
