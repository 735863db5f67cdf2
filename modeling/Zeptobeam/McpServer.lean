/-
The MCP server: its session store and the handling of one request.  A request other
than `initialize` reads its session under the lock, is dispatched without it and
writes the session back under the lock again; each of these is a step of its own, and
the steps of concurrent requests, removals and the clock interleave in any order.
-/
import Zeptobeam.Types
import Zeptobeam.Lib.ReplayLog

namespace Zeptobeam

def supportedProtocolVersion : String := "2024-11-05"

namespace ErrorCodes

def sessionNotInitialized : Int := -32001

def sessionExpired : Int := -32002

def toolNotFound : Int := -32004

def methodNotFound : Int := -32601

def invalidParams : Int := -32602

def internalError : Int := -32603

end ErrorCodes

structure JsonRpcRequest where
  jsonrpc : String
  id : Option Json
  method : String
  params : Option Json
deriving DecidableEq

structure JsonRpcError where
  code : Int
  message : String
  data : Option Json
deriving DecidableEq

structure JsonRpcResponse where
  jsonrpc : String
  id : Option Json
  result : Option Json
  error : Option JsonRpcError
deriving DecidableEq

namespace JsonRpcResponse

def success (id : Option Json) (result : Json) : JsonRpcResponse :=
  ⟨"2.0", id, some result, none⟩

/-- `JsonRpcResponse::error`. -/
def failure (id : Option Json) (code : Int) (message : String) : JsonRpcResponse :=
  ⟨"2.0", id, none, some ⟨code, message, none⟩⟩

end JsonRpcResponse

/-- The error of a handler; `serialization` holds the text of the serde error. -/
inductive McpError where
  | methodNotFound (method : String)
  | invalidParams (message : String)
  | toolNotFound (name : String)
  | serialization (error : String)
  | runtime (message : String)
deriving DecidableEq

def McpError.toResponse (id : Option Json) : McpError → JsonRpcResponse
  | .methodNotFound m => .failure id ErrorCodes.methodNotFound m
  | .invalidParams m => .failure id ErrorCodes.invalidParams m
  | .toolNotFound m => .failure id ErrorCodes.toolNotFound s!"Tool not found: {m}"
  | .serialization e => .failure id ErrorCodes.internalError s!"Serialization error: {e}"
  | .runtime m => .failure id ErrorCodes.internalError m

structure McpSession where
  id : String
  createdAt : Nat
  lastActive : Nat
  initialized : Bool
deriving DecidableEq

namespace McpSession

def new (id : String) (now : Nat) : McpSession := ⟨id, now, now, false⟩

def touch (session : McpSession) (now : Nat) : McpSession :=
  { session with lastActive := now }

def markInitialized (session : McpSession) : McpSession :=
  { session with initialized := true }

def isExpired (session : McpSession) (timeout now : Nat) : Bool :=
  decide (timeout < now - session.lastActive)

end McpSession

structure McpServerState where
  sessions : AList fun _ : String => McpSession
  sessionTimeout : Nat
deriving DecidableEq

namespace McpServerState

/-- `create_session`, with the id that `generate_uuid` answers. -/
def createSession (state : McpServerState) (sessionId : String) (now : Nat) :
    McpServerState :=
  { state with sessions := state.sessions.insert sessionId (.new sessionId now) }

def expiredIds (state : McpServerState) (now : Nat) : List String :=
  (state.sessions.entries.filter (·.2.isExpired state.sessionTimeout now)).map (·.2.id)

/-- `get_session` up to the lookup: the expired sessions are cleaned up first. -/
def purge (state : McpServerState) (now : Nat) : McpServerState :=
  { state with
    sessions := (state.expiredIds now).foldl (fun m id => m.erase id) state.sessions }

def getSession (state : McpServerState) (sessionId : String) (now : Nat) :
    Option McpSession × McpServerState :=
  ((state.purge now).sessions.lookup sessionId, state.purge now)

def updateSession (state : McpServerState) (session : McpSession) (now : Nat) :
    McpServerState :=
  { state with sessions := state.sessions.insert session.id (session.touch now) }

def removeSession (state : McpServerState) (sessionId : String) : Bool × McpServerState :=
  ((state.sessions.lookup sessionId).isSome,
    { state with sessions := state.sessions.erase sessionId })

end McpServerState

/-! ## Requests in steps -/

structure InitializeParams where
  protocolVersion : String
deriving DecidableEq

/-- What `handle_tools_list` and `handle_tools_call` answer at the moment they run.
Neither touches a session. -/
structure ToolAnswers where
  toolsList : Except McpError Json
  toolsCall : Except McpError Json

/-- Where a request in flight stands: an `initialize` about to save its session, or
another request that passed the session check, or its answer about to be returned. -/
inductive Stage where
  | opening
  | admitted
  | dispatched (answer : Except McpError JsonRpcResponse)

namespace Stage

def isOpening : Stage → Bool
  | .opening => true
  | _ => false

def isAdmitted : Stage → Bool
  | .admitted => true
  | _ => false

end Stage

/-- A request in flight, with its clone of the session and the number of events that
came before the session was read. -/
structure InFlight where
  request : JsonRpcRequest
  session : McpSession
  readAt : Nat
  stage : Stage

/-- What happens to the sessions, in order.  A dispatch and a write-back record what the
store holds under the session's id at that moment. -/
inductive SessionEvent where
  | initialized (id : String)
  | removed (id : String)
  | dispatched (id : String) (stored : Option McpSession) (now : Nat)
  | saved (id : String) (stored : Option McpSession)
  | succeeded (id : String) (readAt : Nat)
deriving DecidableEq

structure McpServer where
  state : McpServerState
  now : Nat
  counter : Nat
  inFlight : List InFlight
  responses : List JsonRpcResponse
  log : List SessionEvent

inductive McpOp where
  | elapse (duration : Nat)
  /-- Another caller draws from the process-wide counter of `generate_uuid`. -/
  | drawUuid
  | removeSession (id : String)
  | receive (request : JsonRpcRequest) (sessionId : Option String)
  /-- The request at this place among those in flight goes on to its next stage. -/
  | resume (place : Nat) (tools : ToolAnswers)

def hexPadded (width n : Nat) : String :=
  let digits := Nat.toDigits 16 n
  String.ofList (List.replicate (width - digits.length) '0' ++ digits)

/-- The text that `generate_uuid` makes of the counter. -/
def generateUuid (id : Nat) : String :=
  s!"{hexPadded 8 (id >>> 32)}-{hexPadded 4 ((id >>> 16) &&& 0xFFFF)}-{
    hexPadded 4 (id &&& 0xFFFF)}-{hexPadded 4 (0x8000 ||| (id &&& 0x3FFF))}-{hexPadded 12 id}"

namespace McpServer

def fresh (sessionTimeout : Nat) : McpServer :=
  { state := ⟨∅, sessionTimeout⟩, now := 0, counter := 1, inFlight := [], responses := [],
    log := [] }

def respond (server : McpServer) (response : JsonRpcResponse) : McpServer :=
  { server with responses := server.responses ++ [response] }

def record (server : McpServer) (event : SessionEvent) : McpServer :=
  { server with log := server.log ++ [event] }

/-- `COUNTER.fetch_add`, on a counter of 64 bits. -/
def drawUuid (server : McpServer) : McpServer :=
  { server with counter := (server.counter + 1) % 2 ^ 64 }

def removeSession (server : McpServer) (id : String) : McpServer :=
  { server with
    state := (server.state.removeSession id).2
    log := if (server.state.removeSession id).1 then server.log ++ [.removed id]
      else server.log }

section Handler

-- `serde_json::from_value` at the parameters of `initialize`.
variable (fromValue : Json → Except String InitializeParams)

/-- `handle_initialize` up to the session: the parameters must be there, parse and name
the supported version. -/
def checkInitialize (params : Option Json) : Except String Unit :=
  match params with
  | none => .error "Missing initialize params"
  | some p =>
      match fromValue p with
      | .error e => .error s!"Invalid initialize params: {e}"
      | .ok params =>
          if params.protocolVersion ≠ supportedProtocolVersion then
            .error s!"Unsupported protocol version: {params.protocolVersion}. Supported: {
              supportedProtocolVersion}"
          else .ok ()

def enter (server : McpServer) (request : JsonRpcRequest) (session : McpSession)
    (stage : Stage) : McpServer :=
  { server with
    inFlight := server.inFlight ++ [⟨request, session, server.log.length, stage⟩] }

def handleInitialize (server : McpServer) (request : JsonRpcRequest)
    (sessionId : Option String) : McpServer :=
  match checkInitialize fromValue request.params with
  | .error e => server.respond (.failure request.id ErrorCodes.invalidParams e)
  | .ok () =>
      match sessionId with
      | some id =>
          server.enter request (McpSession.new id server.now).markInitialized .opening
      | none =>
          let id := generateUuid server.counter
          { server.drawUuid with state := server.state.createSession id server.now }.enter
            request (McpSession.new id server.now).markInitialized .opening

/-- `get_session`, and the record of what it cleaned up. -/
def purge (server : McpServer) : McpServer :=
  { server with
    state := server.state.purge server.now
    log := server.log ++ (server.state.expiredIds server.now).map .removed }

/-- `handle_request` up to the dispatch. -/
def handleRequest (server : McpServer) (request : JsonRpcRequest)
    (sessionId : Option String) : McpServer :=
  if request.method = "initialize" then
    server.handleInitialize fromValue request sessionId
  else
    match sessionId with
    | none =>
        server.respond (.failure request.id ErrorCodes.sessionNotInitialized
          "Session not initialized. Call initialize first.")
    | some sessionId =>
        match (server.state.getSession sessionId server.now).1 with
        | none =>
            server.purge.respond (.failure request.id ErrorCodes.sessionExpired
              "Session not found or expired")
        | some session =>
            if !session.initialized then
              server.purge.respond (.failure request.id ErrorCodes.sessionNotInitialized
                "Session not initialized. Call initialize first.")
            else server.purge.enter request session .admitted

/-- The dispatch of `handle_request`. -/
def dispatch (request : JsonRpcRequest) (tools : ToolAnswers) :
    Except McpError JsonRpcResponse :=
  if request.method = "tools/list" then
    tools.toolsList.map (.success request.id)
  else if request.method = "tools/call" then
    tools.toolsCall.map (.success request.id)
  else if request.method = "ping" then
    .ok (.success request.id (.obj []))
  else .error (.methodNotFound request.method)

def initializeResult : Json :=
  .obj [("protocol_version", .str supportedProtocolVersion),
    ("capabilities", .obj [("tools", .obj [("list_changed", .bool false)])]),
    ("server_info", .obj [("name", .str "zeptoclaw"), ("version", .str "0.1.0")])]

def stored (server : McpServer) (r : InFlight) : Option McpSession :=
  server.state.sessions.lookup r.session.id

def leave (server : McpServer) (place : Nat) : McpServer :=
  { server with inFlight := server.inFlight.eraseIdx place }

def updateSession (server : McpServer) (session : McpSession) : McpServer :=
  { server with state := server.state.updateSession session server.now }

/-- The end of `handle_initialize`. -/
def finishInitialize (server : McpServer) (place : Nat) (r : InFlight) : McpServer :=
  (((server.updateSession r.session).record (.initialized r.session.id)).respond
    (.success r.request.id initializeResult)).leave place

def dispatchRequest (server : McpServer) (place : Nat) (r : InFlight)
    (tools : ToolAnswers) : McpServer :=
  let r' := { r with stage := .dispatched (dispatch r.request tools) }
  { server.record (.dispatched r.session.id (server.stored r) server.now) with
    inFlight := server.inFlight.set place r' }

/-- The write-back and the end of `handle_request`. -/
def finishRequest (server : McpServer) (place : Nat) (r : InFlight)
    (answer : Except McpError JsonRpcResponse) : McpServer :=
  let saved := (server.updateSession r.session).record (.saved r.session.id (server.stored r))
  match answer with
  | .ok response =>
      ((saved.record (.succeeded r.session.id r.readAt)).respond response).leave place
  | .error e => (saved.respond (e.toResponse r.request.id)).leave place

def resume (server : McpServer) (place : Nat) (tools : ToolAnswers) : McpServer :=
  match server.inFlight[place]? with
  | none => server
  | some r =>
      match r.stage with
      | .opening => server.finishInitialize place r
      | .admitted => server.dispatchRequest place r tools
      | .dispatched answer => server.finishRequest place r answer

def step (server : McpServer) : McpOp → McpServer
  | .elapse duration => { server with now := server.now + duration }
  | .drawUuid => server.drawUuid
  | .removeSession id => server.removeSession id
  | .receive request sessionId => server.handleRequest fromValue request sessionId
  | .resume place tools => server.resume place tools

end Handler

end McpServer

end Zeptobeam
