/-
MCP session safety.  The store answers a request for an initialised, unexpired session
only, but a removal or an expiry may overtake the request before it is dispatched or
writes its session back, and the write-back puts the session into the store again.
-/
import Zeptobeam.McpServer
import Zeptobeam.Lib.GuardedRun
import Zeptobeam.Lib.EventLog
import Mathlib.Data.List.Perm.Basic

namespace Zeptobeam

open GuardedRun

/-- After its last removal, if there is one, the session was initialised. -/
abbrev Standing (log : List SessionEvent) (id : String) : Prop :=
  EventLog.Renewed (.removed id) (.initialized id) log

/-- What is asked of an event, given the events before it. -/
def SessionEvent.Allowed (sessionTimeout : Nat) (before : List SessionEvent) :
    SessionEvent → Prop
  | .initialized _ | .removed _ => True
  | .dispatched _ stored now =>
      ∃ session, stored = some session ∧ session.initialized = true ∧
        session.isExpired sessionTimeout now = false
  | .saved _ stored => stored.isSome = true
  | .succeeded id readAt => Standing (before.take readAt) id

/-- A request is dispatched only for a session that exists, is initialised and has not
expired; no write-back re-creates a session; and a request succeeds only when, at the
time it read its session, the session had been initialised since its last removal. -/
abbrev SessionsSafe (sessionTimeout : Nat) (log : List SessionEvent) : Prop :=
  EventLog.Lawful (SessionEvent.Allowed sessionTimeout) log

/-! ## The store -/

namespace McpServerState

variable {state : McpServerState} {now : Nat} {key id : String} {session : McpSession}

/-- Every session is stored under its own id. -/
def Keyed (state : McpServerState) : Prop :=
  ∀ key session, state.sessions.lookup key = some session → session.id = key

theorem mem_expiredIds_iff (hkeyed : state.Keyed) :
    key ∈ state.expiredIds now ↔ ∃ session, state.sessions.lookup key = some session ∧
      session.isExpired state.sessionTimeout now = true := by
  simp only [expiredIds, List.mem_map, List.mem_filter]
  constructor
  · rintro ⟨⟨other, session⟩, ⟨hentry, hexpired⟩, rfl⟩
    have hlookup := AList.mem_lookup_iff.mpr hentry
    exact ⟨session, by rwa [hkeyed other session hlookup], hexpired⟩
  · rintro ⟨session, hlookup, hexpired⟩
    exact ⟨⟨key, session⟩, ⟨AList.mem_lookup_iff.mp hlookup, hexpired⟩,
      hkeyed key session hlookup⟩

theorem lookup_purge :
    (state.purge now).sessions.lookup key =
      if key ∈ state.expiredIds now then none else state.sessions.lookup key :=
  ReplayLog.lookup_foldl_erase _ state.sessions key

/-- What is left after the clean-up was there before and has not expired. -/
theorem lookup_purge_eq_some_iff (hkeyed : state.Keyed) :
    (state.purge now).sessions.lookup key = some session ↔
      state.sessions.lookup key = some session ∧
        session.isExpired state.sessionTimeout now = false := by
  rw [lookup_purge]
  constructor
  · intro h
    split at h
    · cases h
    · rename_i hfresh
      refine ⟨h, ?_⟩
      by_contra hexpired
      exact hfresh ((mem_expiredIds_iff hkeyed).mpr ⟨session, h, by simpa using hexpired⟩)
  · rintro ⟨hlookup, hfresh⟩
    rw [if_neg, hlookup]
    intro hmem
    obtain ⟨other, hother, hexpired⟩ := (mem_expiredIds_iff hkeyed).mp hmem
    obtain rfl : session = other := Option.some.inj (hlookup.symm.trans hother)
    rw [hfresh] at hexpired
    cases hexpired

theorem Keyed.purge (hkeyed : state.Keyed) (now : Nat) : (state.purge now).Keyed := by
  intro key session h
  exact hkeyed key session ((lookup_purge_eq_some_iff hkeyed).mp h).1

theorem Keyed.createSession (hkeyed : state.Keyed) : (state.createSession id now).Keyed := by
  intro key session h
  simp only [McpServerState.createSession] at h
  by_cases hkey : key = id
  · rw [hkey, AList.lookup_insert] at h
    cases h
    exact hkey.symm
  · rw [AList.lookup_insert_ne hkey] at h
    exact hkeyed key session h

theorem Keyed.updateSession (hkeyed : state.Keyed) (saved : McpSession) :
    (state.updateSession saved now).Keyed := by
  intro key session h
  simp only [McpServerState.updateSession] at h
  by_cases hkey : key = saved.id
  · rw [hkey, AList.lookup_insert] at h
    cases h
    exact hkey.symm
  · rw [AList.lookup_insert_ne hkey] at h
    exact hkeyed key session h

theorem Keyed.removeSession (hkeyed : state.Keyed) (id : String) :
    (state.removeSession id).2.Keyed := by
  intro key session h
  simp only [McpServerState.removeSession] at h
  by_cases hkey : key = id
  · rw [hkey, AList.lookup_erase] at h
    cases h
  · rw [AList.lookup_erase_ne hkey] at h
    exact hkeyed key session h

end McpServerState

/-! ## Requests overtaken -/

namespace McpServer

variable {fromValue : Json → Except String InitializeParams} {s : McpServer} {r : InFlight}
  {op : McpOp}

/-- The store holds what the next stage of the request needs. -/
def Held (s : McpServer) (r : InFlight) : Prop :=
  match r.stage with
  | .opening => True
  | .admitted => ∃ session, s.stored r = some session ∧ session.initialized = true ∧
      session.isExpired s.state.sessionTimeout s.now = false
  | .dispatched _ => (s.stored r).isSome = true

def storedExpired (s : McpServer) (r : InFlight) (now : Nat) : Bool :=
  (s.stored r).any (·.isExpired s.state.sessionTimeout now)

/-- The operation overtakes the request: it lets the session expire before the dispatch,
or removes it, cleans it up or creates another one under its id. -/
def overtakes (fromValue : Json → Except String InitializeParams) (s : McpServer)
    (r : InFlight) : McpOp → Bool
  | .elapse duration => r.stage.isAdmitted && s.storedExpired r (s.now + duration)
  | .removeSession id => !r.stage.isOpening && r.session.id == id
  | .receive request sessionId =>
      if request.method = "initialize" then
        r.stage.isAdmitted && sessionId.isNone &&
          (checkInitialize fromValue request.params).isOk &&
          generateUuid s.counter == r.session.id
      else sessionId.isSome && !r.stage.isOpening && s.storedExpired r s.now
  | .drawUuid | .resume _ _ => false

def OvertakesNone (fromValue : Json → Except String InitializeParams) (s : McpServer)
    (op : McpOp) : Prop :=
  ∀ r ∈ s.inFlight, s.overtakes fromValue r op = false

instance : DecidablePred (s.OvertakesNone fromValue) :=
  fun op => inferInstanceAs (Decidable (∀ r ∈ s.inFlight, s.overtakes fromValue r op = false))

/-- What holds of a request in flight. -/
structure Sound (s : McpServer) (r : InFlight) : Prop where
  initialized : r.session.initialized = true
  held : s.Held r
  standing : r.stage.isOpening = false → Standing s.log r.session.id
  read : r.stage.isOpening = false →
    r.readAt ≤ s.log.length ∧ Standing (s.log.take r.readAt) r.session.id

structure Inv (sessionTimeout : Nat) (s : McpServer) : Prop where
  timeout : s.state.sessionTimeout = sessionTimeout
  keyed : s.state.Keyed
  standing : ∀ key session, s.state.sessions.lookup key = some session →
    session.initialized = true → Standing s.log key
  requests : ∀ r ∈ s.inFlight, s.Sound r
  safe : SessionsSafe sessionTimeout s.log

theorem Sound.mono {s' : McpServer} {more : List SessionEvent} (h : s.Sound r)
    (hheld : s'.Held r) (hlog : s'.log = s.log ++ more)
    (hmore : r.stage.isOpening = false → .removed r.session.id ∉ more) : s'.Sound r where
  initialized := h.initialized
  held := hheld
  standing hopen := by
    rw [hlog]
    exact (h.standing hopen).append (hmore hopen)
  read hopen := by
    obtain ⟨hreadAt, hread⟩ := h.read hopen
    rw [hlog, List.take_append_of_le_length hreadAt, List.length_append]
    exact ⟨by omega, hread⟩

/-- Where no request in flight is touched and the log stays, only the store matters. -/
theorem Sound.of_log_eq {s' : McpServer} (h : s.Sound r) (hheld : s'.Held r)
    (hlog : s'.log = s.log) : s'.Sound r :=
  h.mono hheld (by rw [hlog, List.append_nil]) (fun _ => List.not_mem_nil)

/-! ## What overtakes a request -/

theorem held_congr {s' : McpServer} (hstored : s'.stored r = s.stored r)
    (htimeout : s'.state.sessionTimeout = s.state.sessionTimeout) (hnow : s'.now = s.now) :
    s'.Held r ↔ s.Held r := by
  unfold Held
  rw [hstored, htimeout, hnow]

theorem not_held_of_stored_none (hopen : r.stage.isOpening = false)
    (hstored : s.stored r = none) : ¬ s.Held r := by
  unfold Held
  rw [hstored]
  cases hstage : r.stage with
  | opening => simp [hstage, Stage.isOpening] at hopen
  | admitted => simp
  | dispatched answer => simp

theorem held_of_isOpening (hopen : r.stage.isOpening = true) : s.Held r := by
  unfold Held
  cases hstage : r.stage with
  | opening => trivial
  | admitted => simp [hstage, Stage.isOpening] at hopen
  | dispatched answer => simp [hstage, Stage.isOpening] at hopen

theorem held_elapse_iff (h : s.Held r) (duration : Nat) :
    Held { s with now := s.now + duration } r ↔
      s.overtakes fromValue r (.elapse duration) = false := by
  unfold Held at h ⊢
  cases hstage : r.stage with
  | opening => simp [overtakes, hstage, Stage.isAdmitted]
  | dispatched answer => simpa [overtakes, hstage, Stage.isAdmitted, stored] using h
  | admitted =>
      simp only [hstage] at h ⊢
      obtain ⟨session, hstored, hinit, _⟩ := h
      have hstored' : s.state.sessions.lookup r.session.id = some session := hstored
      simp [overtakes, hstage, Stage.isAdmitted, storedExpired, stored, hstored', hinit]

theorem held_removeSession_iff (h : s.Held r) (id : String) :
    (s.removeSession id).Held r ↔
      s.overtakes fromValue r (.removeSession id) = false := by
  cases hopen : r.stage.isOpening with
  | true => simp [overtakes, hopen, held_of_isOpening hopen]
  | false =>
      by_cases hid : r.session.id = id
      · have hstored : (s.removeSession id).stored r = none := by
          rw [← hid]
          exact AList.lookup_erase _ _
        simp [overtakes, hopen, hid, not_held_of_stored_none hopen hstored]
      · have hstored : (s.removeSession id).stored r = s.stored r := AList.lookup_erase_ne hid
        simp [overtakes, hid, (held_congr hstored rfl rfl).mpr h]

theorem stored_purge (hkeyed : s.state.Keyed) (r : InFlight) :
    s.purge.stored r = if s.storedExpired r s.now then none else s.stored r := by
  have hmem : r.session.id ∈ s.state.expiredIds s.now ↔ s.storedExpired r s.now = true := by
    rw [McpServerState.mem_expiredIds_iff hkeyed, storedExpired, Option.any_eq_true]
    rfl
  have hlookup : s.purge.stored r = if r.session.id ∈ s.state.expiredIds s.now then none
      else s.stored r := McpServerState.lookup_purge
  simpa only [hmem] using hlookup

theorem held_purge_iff (hkeyed : s.state.Keyed) (h : s.Held r) :
    s.purge.Held r ↔ (!r.stage.isOpening && s.storedExpired r s.now) = false := by
  have hstored := stored_purge hkeyed r
  cases hopen : r.stage.isOpening with
  | true => simp [held_of_isOpening hopen]
  | false =>
      cases hexpired : s.storedExpired r s.now with
      | true =>
          rw [hexpired, if_pos rfl] at hstored
          simp [not_held_of_stored_none hopen hstored]
      | false =>
          rw [hexpired, if_neg Bool.false_ne_true] at hstored
          simp [(held_congr hstored rfl rfl).mpr h]

/-- A session made anew under the id of a request that is still to be dispatched is not
initialised; a request that was dispatched only needs one to be there. -/
theorem held_createSession_iff (h : s.Held r) (id : String) :
    Held { s with state := s.state.createSession id s.now } r ↔
      (r.stage.isAdmitted && id == r.session.id) = false := by
  by_cases hid : r.session.id = id
  · have hstored : stored { s with state := s.state.createSession id s.now } r =
        some (.new id s.now) := by
      rw [← hid]
      exact AList.lookup_insert _
    unfold Held
    rw [hstored]
    cases hstage : r.stage <;> simp [Stage.isAdmitted, McpSession.new, hid]
  · have hstored : stored { s with state := s.state.createSession id s.now } r = s.stored r :=
      AList.lookup_insert_ne hid
    simp [(held_congr hstored rfl rfl).mpr h, Ne.symm hid]

/-- A session that is saved initialised is all that any request needs. -/
theorem held_updateSession (h : s.Held r) {session : McpSession}
    (hinit : session.initialized = true) : (s.updateSession session).Held r := by
  by_cases hid : r.session.id = session.id
  · have hstored : (s.updateSession session).stored r = some (session.touch s.now) := by
      unfold stored
      rw [hid]
      exact AList.lookup_insert _
    unfold Held
    rw [hstored]
    cases r.stage with
    | opening => trivial
    | admitted =>
        refine ⟨session.touch s.now, rfl, hinit, ?_⟩
        simp [McpSession.isExpired, McpSession.touch, updateSession]
    | dispatched answer => rfl
  · have hstored : (s.updateSession session).stored r = s.stored r :=
      AList.lookup_insert_ne hid
    exact (held_congr hstored rfl rfl).mpr h

/-! ## One step -/

variable {sessionTimeout : Nat} {request : JsonRpcRequest} {place : Nat}

theorem inv_fresh (sessionTimeout : Nat) : (fresh sessionTimeout).Inv sessionTimeout where
  timeout := rfl
  keyed _ _ h := by cases h
  standing _ _ h := by cases h
  requests _ h := by cases h
  safe := EventLog.lawful_nil

theorem Inv.respond (h : s.Inv sessionTimeout) (response : JsonRpcResponse) :
    (s.respond response).Inv sessionTimeout where
  timeout := h.timeout
  keyed := h.keyed
  standing := h.standing
  requests r hr := (h.requests r hr).of_log_eq (h.requests r hr).held rfl
  safe := h.safe

theorem Inv.leave (h : s.Inv sessionTimeout) (place : Nat) :
    (s.leave place).Inv sessionTimeout where
  timeout := h.timeout
  keyed := h.keyed
  standing := h.standing
  requests r hr := by
    have hsound := h.requests r (List.mem_of_mem_eraseIdx hr)
    exact hsound.of_log_eq hsound.held rfl
  safe := h.safe

theorem Inv.elapse (h : s.Inv sessionTimeout) {duration : Nat}
    (hnone : s.OvertakesNone fromValue (.elapse duration)) :
    Inv sessionTimeout { s with now := s.now + duration } where
  timeout := h.timeout
  keyed := h.keyed
  standing := h.standing
  requests r hr := by
    have hsound := h.requests r hr
    exact hsound.of_log_eq ((held_elapse_iff hsound.held duration).mpr (hnone r hr)) rfl
  safe := h.safe

theorem Inv.removeSession (h : s.Inv sessionTimeout) {id : String}
    (hnone : s.OvertakesNone fromValue (.removeSession id)) :
    (s.removeSession id).Inv sessionTimeout := by
  obtain ⟨more, hlog, hmore⟩ : ∃ more, (s.removeSession id).log = s.log ++ more ∧
      ∀ event ∈ more, event = .removed id := by
    unfold McpServer.removeSession
    cases (s.state.removeSession id).1 with
    | true => exact ⟨[.removed id], rfl, fun event hevent => List.mem_singleton.mp hevent⟩
    | false => exact ⟨[], (List.append_nil _).symm, fun event hevent => by cases hevent⟩
  exact {
    timeout := h.timeout
    keyed := h.keyed.removeSession id
    standing := by
      intro key session hlookup hinit
      have hkey : key ≠ id := by
        rintro rfl
        rw [McpServer.removeSession, McpServerState.removeSession, AList.lookup_erase]
          at hlookup
        cases hlookup
      rw [hlog]
      apply (h.standing key session ((AList.lookup_erase_ne hkey).symm.trans hlookup)
        hinit).append
      intro hmem
      exact hkey (SessionEvent.removed.inj (hmore _ hmem))
    requests := by
      intro r hr
      have hsound := h.requests r hr
      apply hsound.mono ((held_removeSession_iff hsound.held id).mpr (hnone r hr)) hlog
      intro hopen hmem
      have hover := hnone r hr
      simp [overtakes, hopen, SessionEvent.removed.inj (hmore _ hmem)] at hover
    safe := by
      rw [hlog]
      apply h.safe.append
      intro event hevent before
      rw [hmore event hevent]
      trivial }

theorem Inv.purge (h : s.Inv sessionTimeout)
    (hnone : ∀ r ∈ s.inFlight, (!r.stage.isOpening && s.storedExpired r s.now) = false) :
    s.purge.Inv sessionTimeout where
  timeout := h.timeout
  keyed := h.keyed.purge s.now
  standing key session hlookup hinit := by
    obtain ⟨hbefore, hfresh⟩ := (McpServerState.lookup_purge_eq_some_iff h.keyed).mp hlookup
    apply (h.standing key session hbefore hinit).append
    intro hmem
    obtain ⟨id, hid, heq⟩ := List.mem_map.mp hmem
    obtain rfl := SessionEvent.removed.inj heq
    obtain ⟨other, hother, hexpired⟩ := (McpServerState.mem_expiredIds_iff h.keyed).mp hid
    cases hbefore.symm.trans hother
    exact Bool.false_ne_true (hfresh.symm.trans hexpired)
  requests r hr := by
    have hsound := h.requests r hr
    apply hsound.mono ((held_purge_iff h.keyed hsound.held).mpr (hnone r hr)) rfl
    intro hopen hmem
    obtain ⟨id, hid, heq⟩ := List.mem_map.mp hmem
    obtain rfl := SessionEvent.removed.inj heq
    obtain ⟨session, hstored, hexpired⟩ := (McpServerState.mem_expiredIds_iff h.keyed).mp hid
    have hover := hnone r hr
    rw [hopen, storedExpired, show s.stored r = some session from hstored] at hover
    exact Bool.false_ne_true (hover.symm.trans hexpired)
  safe := by
    apply h.safe.append
    intro event hevent before
    obtain ⟨id, _, rfl⟩ := List.mem_map.mp hevent
    trivial

/-- A new request in flight, with what it needs. -/
theorem Inv.enter (h : s.Inv sessionTimeout) {session : McpSession} {stage : Stage}
    (hinit : session.initialized = true)
    (hheld : s.Held ⟨request, session, s.log.length, stage⟩)
    (hstanding : stage.isOpening = false → Standing s.log session.id) :
    (s.enter request session stage).Inv sessionTimeout where
  timeout := h.timeout
  keyed := h.keyed
  standing := h.standing
  requests r hr := by
    rcases List.mem_append.mp hr with hr | hr
    · exact (h.requests r hr).of_log_eq (h.requests r hr).held rfl
    · obtain rfl := List.mem_singleton.mp hr
      refine ⟨hinit, hheld, hstanding, fun hopen => ⟨le_rfl, ?_⟩⟩
      have htake : s.log.take s.log.length = s.log := List.take_length
      exact htake.symm ▸ hstanding hopen
  safe := h.safe

theorem Inv.createSession (h : s.Inv sessionTimeout) {id : String} (counter : Nat)
    (hnone : ∀ r ∈ s.inFlight, (r.stage.isAdmitted && id == r.session.id) = false) :
    Inv sessionTimeout
      { s with state := s.state.createSession id s.now, counter := counter } where
  timeout := h.timeout
  keyed := h.keyed.createSession
  standing key session hlookup hinit := by
    have hkey : key ≠ id := by
      rintro rfl
      simp only [McpServerState.createSession, AList.lookup_insert] at hlookup
      cases hlookup
      cases hinit
    exact h.standing key session ((AList.lookup_insert_ne hkey).symm.trans hlookup) hinit
  requests r hr := by
    have hsound := h.requests r hr
    exact hsound.of_log_eq ((held_createSession_iff hsound.held id).mpr (hnone r hr)) rfl
  safe := h.safe

/-- Saving an initialised session, once its id stands after the event recorded. -/
theorem Inv.save (h : s.Inv sessionTimeout) {session : McpSession} {event : SessionEvent}
    (hinit : session.initialized = true) (hevent : ∀ id, event ≠ .removed id)
    (hstanding : Standing (s.log ++ [event]) session.id)
    (hallowed : event.Allowed sessionTimeout s.log) :
    ((s.updateSession session).record event).Inv sessionTimeout where
  timeout := h.timeout
  keyed := h.keyed.updateSession session
  standing key saved hlookup hsaved := by
    by_cases hkey : key = session.id
    · rw [hkey]
      exact hstanding
    · exact (h.standing key saved ((AList.lookup_insert_ne hkey).symm.trans hlookup)
        hsaved).concat (hevent key)
  requests r hr := by
    have hsound := h.requests r hr
    have hheld : ((s.updateSession session).record event).Held r :=
      held_updateSession hsound.held hinit
    apply hsound.mono hheld (show _ = s.log ++ [event] from rfl)
    intro _ hmem
    exact hevent r.session.id (List.mem_singleton.mp hmem).symm
  safe := EventLog.lawful_concat_iff.mpr ⟨h.safe, hallowed⟩

theorem Inv.record (h : s.Inv sessionTimeout) {event : SessionEvent}
    (hevent : ∀ id, event ≠ .removed id) (hallowed : event.Allowed sessionTimeout s.log) :
    (s.record event).Inv sessionTimeout where
  timeout := h.timeout
  keyed := h.keyed
  standing key session hlookup hinit :=
    (h.standing key session hlookup hinit).concat (hevent key)
  requests r hr := by
    have hsound := h.requests r hr
    have hheld : (s.record event).Held r := hsound.held
    apply hsound.mono hheld (show _ = s.log ++ [event] from rfl)
    intro _ hmem
    exact hevent r.session.id (List.mem_singleton.mp hmem).symm
  safe := EventLog.lawful_concat_iff.mpr ⟨h.safe, hallowed⟩

theorem Inv.handleInitialize (h : s.Inv sessionTimeout) {sessionId : Option String}
    (hmethod : request.method = "initialize")
    (hnone : s.OvertakesNone fromValue (.receive request sessionId)) :
    (s.handleInitialize fromValue request sessionId).Inv sessionTimeout := by
  unfold McpServer.handleInitialize
  cases hcheck : checkInitialize fromValue request.params with
  | error e => exact h.respond _
  | ok params =>
      cases sessionId with
      | some id => exact h.enter rfl trivial (fun hopen => by cases hopen)
      | none =>
          apply Inv.enter
          · apply h.createSession
            intro r hr
            have hover := hnone r hr
            simpa [overtakes, hmethod, hcheck, Except.isOk, Except.toBool] using hover
          · rfl
          · trivial
          · intro hopen
            cases hopen

theorem Inv.handleRequest (h : s.Inv sessionTimeout) {sessionId : Option String}
    (hnone : s.OvertakesNone fromValue (.receive request sessionId)) :
    (s.handleRequest fromValue request sessionId).Inv sessionTimeout := by
  unfold McpServer.handleRequest
  by_cases hmethod : request.method = "initialize"
  · rw [if_pos hmethod]
    exact h.handleInitialize hmethod hnone
  rw [if_neg hmethod]
  cases sessionId with
  | none => exact h.respond _
  | some sessionId =>
      have hpurge : s.purge.Inv sessionTimeout := by
        apply h.purge
        intro r hr
        have hover := hnone r hr
        simpa [overtakes, hmethod] using hover
      dsimp only
      cases hget : (s.state.getSession sessionId s.now).1 with
      | none => exact hpurge.respond _
      | some session =>
          dsimp only
          cases hinit : session.initialized with
          | false => exact hpurge.respond _
          | true =>
              have hlookup : s.purge.state.sessions.lookup sessionId = some session := hget
              obtain rfl := hpurge.keyed sessionId session hlookup
              have hfresh := ((McpServerState.lookup_purge_eq_some_iff h.keyed).mp hget).2
              apply hpurge.enter hinit
              · exact ⟨session, hlookup, hinit, hfresh⟩
              · intro _
                exact hpurge.standing session.id session hlookup hinit

theorem Inv.finishInitialize (h : s.Inv sessionTimeout) (hr : r ∈ s.inFlight) (place : Nat) :
    (s.finishInitialize place r).Inv sessionTimeout := by
  apply Inv.leave
  apply Inv.respond
  apply h.save (h.requests r hr).initialized
  · intro id hid
    cases hid
  · exact EventLog.renewed_concat_renewed (fun hid => by cases hid)
  · trivial

theorem Inv.dispatchRequest (h : s.Inv sessionTimeout) (hr : r ∈ s.inFlight)
    (hstage : r.stage = .admitted) (place : Nat) (tools : ToolAnswers) :
    (s.dispatchRequest place r tools).Inv sessionTimeout := by
  have hsound := h.requests r hr
  obtain ⟨session, hstored, hinit, hfresh⟩ : ∃ session, s.stored r = some session ∧
      session.initialized = true ∧
        session.isExpired s.state.sessionTimeout s.now = false := by
    have hheld := hsound.held
    unfold Held at hheld
    rwa [hstage] at hheld
  rw [h.timeout] at hfresh
  have hopen : r.stage.isOpening = false := by rw [hstage]; rfl
  have hrecord : (s.record (.dispatched r.session.id (s.stored r) s.now)).Inv sessionTimeout :=
    h.record (fun id hid => by cases hid) ⟨session, hstored, hinit, hfresh⟩
  have hsound' := hrecord.requests r hr
  exact {
    timeout := hrecord.timeout
    keyed := hrecord.keyed
    standing := hrecord.standing
    requests := by
      intro other hother
      rcases List.mem_or_eq_of_mem_set hother with hother | rfl
      · exact (hrecord.requests other hother).of_log_eq (hrecord.requests other hother).held rfl
      · refine ⟨hsound'.initialized, ?_, fun _ => hsound'.standing hopen,
          fun _ => hsound'.read hopen⟩
        exact Option.isSome_iff_exists.mpr ⟨session, hstored⟩
    safe := hrecord.safe }

theorem Inv.finishRequest (h : s.Inv sessionTimeout) (hr : r ∈ s.inFlight)
    {answer : Except McpError JsonRpcResponse} (hstage : r.stage = .dispatched answer)
    (place : Nat) : (s.finishRequest place r answer).Inv sessionTimeout := by
  have hsound := h.requests r hr
  have hopen : r.stage.isOpening = false := by rw [hstage]; rfl
  have hstored : (s.stored r).isSome = true := by
    have hheld := hsound.held
    unfold Held at hheld
    rwa [hstage] at hheld
  have hsave : ((s.updateSession r.session).record
      (.saved r.session.id (s.stored r))).Inv sessionTimeout :=
    h.save hsound.initialized (fun id hid => by cases hid)
      ((hsound.standing hopen).concat (fun hid => by cases hid)) hstored
  cases answer with
  | error e => exact (hsave.respond _).leave place
  | ok response =>
      apply Inv.leave
      apply Inv.respond
      apply hsave.record
      · intro id hid
        cases hid
      · exact ((hsave.requests r hr).read hopen).2

theorem Inv.resume (h : s.Inv sessionTimeout) (place : Nat) (tools : ToolAnswers) :
    (s.resume place tools).Inv sessionTimeout := by
  unfold McpServer.resume
  cases hplace : s.inFlight[place]? with
  | none => exact h
  | some r =>
      have hr : r ∈ s.inFlight := List.mem_of_getElem? hplace
      dsimp only
      cases hstage : r.stage with
      | opening => exact h.finishInitialize hr place
      | admitted => exact h.dispatchRequest hr hstage place tools
      | dispatched answer => exact h.finishRequest hr hstage place

theorem Inv.step (h : s.Inv sessionTimeout) (hnone : s.OvertakesNone fromValue op) :
    (s.step fromValue op).Inv sessionTimeout := by
  cases op with
  | elapse duration => exact h.elapse hnone
  | drawUuid =>
      exact ⟨h.timeout, h.keyed, h.standing,
        fun r hr => (h.requests r hr).of_log_eq (h.requests r hr).held rfl, h.safe⟩
  | removeSession id => exact h.removeSession hnone
  | receive request sessionId => exact h.handleRequest hnone
  | resume place tools => exact h.resume place tools

/-! ## A request overtaken breaks the log -/

/-- The next stage of a request records what it finds in the store. -/
theorem not_safe_resume (hplace : s.inFlight[place]? = some r) (hheld : ¬ s.Held r)
    (tools : ToolAnswers) :
    ¬ SessionsSafe s.state.sessionTimeout (s.resume place tools).log := by
  intro hsafe
  apply hheld
  unfold Held
  unfold McpServer.resume at hsafe
  rw [hplace] at hsafe
  dsimp only at hsafe
  cases hstage : r.stage with
  | opening => trivial
  | admitted =>
      rw [hstage] at hsafe
      exact (EventLog.lawful_concat_iff.mp hsafe).2
  | dispatched answer =>
      rw [hstage] at hsafe
      cases answer with
      | error e => exact (EventLog.lawful_concat_iff.mp hsafe).2
      | ok response =>
          exact (EventLog.lawful_concat_iff.mp (EventLog.lawful_concat_iff.mp hsafe).1).2

theorem handleRequest_eq_purge (s : McpServer)
    (fromValue : Json → Except String InitializeParams) (sessionId : String)
    (hmethod : request.method ≠ "initialize") :
    ∃ responses more, s.handleRequest fromValue request (some sessionId) =
      { s.purge with responses := responses, inFlight := s.inFlight ++ more } := by
  unfold handleRequest
  rw [if_neg hmethod]
  dsimp only
  have hsame : ∀ response, s.purge.respond response =
      { s.purge with
        responses := s.responses ++ [response], inFlight := s.inFlight ++ [] } := by
    intro response
    rw [List.append_nil]
    rfl
  cases (s.state.getSession sessionId s.now).1 with
  | none => exact ⟨_, _, hsame _⟩
  | some session =>
      dsimp only
      cases session.initialized with
      | false => exact ⟨_, _, hsame _⟩
      | true => exact ⟨_, _, rfl⟩

theorem handleRequest_opening {sessionId : Option String}
    (hmethod : request.method = "initialize") :
    s.handleRequest fromValue request sessionId =
      s.handleInitialize fromValue request sessionId :=
  if_pos hmethod

theorem handleRequest_none (hmethod : request.method ≠ "initialize") :
    s.handleRequest fromValue request none =
      s.respond (.failure request.id ErrorCodes.sessionNotInitialized
        "Session not initialized. Call initialize first.") :=
  if_neg hmethod

theorem not_held_of_overtakes (h : s.Inv sessionTimeout) (hr : r ∈ s.inFlight)
    (hover : s.overtakes fromValue r op = true) : ¬ (s.step fromValue op).Held r := by
  have hheld := (h.requests r hr).held
  cases op with
  | elapse duration =>
      intro hafter
      exact Bool.false_ne_true
        (((held_elapse_iff hheld duration).mp hafter).symm.trans hover)
  | drawUuid => cases hover
  | resume place tools => cases hover
  | removeSession id =>
      intro hafter
      exact Bool.false_ne_true
        (((held_removeSession_iff hheld id).mp hafter).symm.trans hover)
  | receive request sessionId =>
      by_cases hmethod : request.method = "initialize"
      · simp only [overtakes, hmethod, if_true, Bool.and_eq_true, beq_iff_eq] at hover
        obtain ⟨⟨⟨hstage, hsession⟩, hcheck⟩, hid⟩ := hover
        obtain rfl := Option.isNone_iff_eq_none.mp hsession
        cases hparams : checkInitialize fromValue request.params with
        | error e => simp [hparams, Except.isOk, Except.toBool] at hcheck
        | ok params =>
            have hcreate := (held_createSession_iff hheld (generateUuid s.counter)).not.mpr
              (by simp [hstage, hid])
            rw [step, handleRequest_opening hmethod, handleInitialize, hparams]
            exact hcreate
      · simp only [overtakes, hmethod, if_false, Bool.and_eq_true] at hover
        obtain ⟨⟨hsession, hopen⟩, hexpired⟩ := hover
        obtain ⟨sessionId, rfl⟩ := Option.isSome_iff_exists.mp hsession
        obtain ⟨responses, more, heq⟩ := handleRequest_eq_purge s fromValue sessionId hmethod
        have hpurge := (held_purge_iff h.keyed hheld).not.mpr (by simp [hopen, hexpired])
        rw [step, heq]
        exact hpurge

theorem handleRequest_keeps (s : McpServer)
    (fromValue : Json → Except String InitializeParams) (request : JsonRpcRequest)
    (sessionId : Option String) :
    s.inFlight <+: (s.handleRequest fromValue request sessionId).inFlight ∧
      (s.handleRequest fromValue request sessionId).state.sessionTimeout =
        s.state.sessionTimeout := by
  by_cases hmethod : request.method = "initialize"
  · rw [handleRequest_opening hmethod]
    unfold handleInitialize
    cases checkInitialize fromValue request.params with
    | error e => exact ⟨List.prefix_rfl, rfl⟩
    | ok params => cases sessionId <;> exact ⟨List.prefix_append _ _, rfl⟩
  · cases sessionId with
    | none =>
        rw [handleRequest_none hmethod]
        exact ⟨List.prefix_rfl, rfl⟩
    | some sessionId =>
        obtain ⟨responses, more, heq⟩ :=
          handleRequest_eq_purge s fromValue sessionId hmethod
        rw [heq]
        exact ⟨List.prefix_append _ _, rfl⟩

/-- Only a request that goes on changes those in flight before it. -/
theorem inFlight_prefix_step (s : McpServer)
    (fromValue : Json → Except String InitializeParams) (hop : ∀ place tools, op ≠ .resume place tools) :
    s.inFlight <+: (s.step fromValue op).inFlight := by
  cases op with
  | elapse duration => exact List.prefix_rfl
  | drawUuid => exact List.prefix_rfl
  | resume place tools => exact absurd rfl (hop place tools)
  | removeSession id => exact List.prefix_rfl
  | receive request sessionId => exact (handleRequest_keeps s fromValue request sessionId).1

theorem timeout_step (fromValue : Json → Except String InitializeParams) (s : McpServer)
    (op : McpOp) :
    (s.step fromValue op).state.sessionTimeout = s.state.sessionTimeout := by
  cases op with
  | elapse duration => rfl
  | drawUuid => rfl
  | removeSession id => rfl
  | receive request sessionId => exact (handleRequest_keeps s fromValue request sessionId).2
  | resume place tools =>
      rw [step, resume]
      cases s.inFlight[place]? with
      | none => rfl
      | some r =>
          dsimp only
          cases r.stage with
          | opening => rfl
          | admitted => rfl
          | dispatched answer => cases answer <;> rfl

theorem exists_resume_not_safe (h : s.Inv sessionTimeout)
    (hover : ¬ s.OvertakesNone fromValue op) :
    ∃ place, ∀ tools,
      ¬ SessionsSafe sessionTimeout ((s.step fromValue op).resume place tools).log := by
  simp only [OvertakesNone, not_forall, Bool.not_eq_false] at hover
  obtain ⟨r, hr, hover⟩ := hover
  obtain ⟨place, hplace⟩ := List.mem_iff_getElem?.mp hr
  have hop : ∀ place tools, op ≠ .resume place tools := by
    rintro place tools rfl
    cases hover
  refine ⟨place, fun tools => ?_⟩
  rw [← h.timeout, ← timeout_step fromValue s op]
  apply not_safe_resume
  · obtain ⟨more, hmore⟩ := inFlight_prefix_step s fromValue hop
    rw [← hmore]
    rw [List.getElem?_append_left (List.getElem?_eq_some_iff.mp hplace).1, hplace]
  · exact not_held_of_overtakes h hr hover

/-! ## Whole runs -/

abbrev run (fromValue : Json → Except String InitializeParams) (sessionTimeout : Nat)
    (ops : List McpOp) : McpServer :=
  ops.foldl (step fromValue) (fresh sessionTimeout)

/-- The sessions are safe throughout every run in which no removal, expiry or new session
overtakes a request in flight; and an operation that overtakes one after such a run
breaks the safety as soon as the request goes on. -/
theorem sessions_safe (fromValue : Json → Except String InitializeParams)
    (sessionTimeout : Nat) (ops : List McpOp)
    (hguarded : Guarded (step fromValue) (OvertakesNone fromValue) (fresh sessionTimeout) ops) :
    Throughout (step fromValue) (fun s => SessionsSafe sessionTimeout s.log)
        (fresh sessionTimeout) ops ∧
      ∀ op, ¬ (run fromValue sessionTimeout ops).OvertakesNone fromValue op →
        ∃ place, ∀ tools, ¬ SessionsSafe sessionTimeout
          (run fromValue sessionTimeout (ops ++ [op, .resume place tools])).log := by
  have hinv : ∀ pre, pre <+: ops → (run fromValue sessionTimeout pre).Inv sessionTimeout := by
    intro pre hpre
    exact (hguarded.shorten hpre).keeps (inv_fresh sessionTimeout) fun s op h => h.step
  constructor
  · intro pre hpre
    exact (hinv pre hpre).safe
  · intro op hover
    obtain ⟨place, hplace⟩ := exists_resume_not_safe (hinv ops List.prefix_rfl) hover
    refine ⟨place, fun tools => ?_⟩
    rw [run, List.foldl_append]
    exact hplace tools

/-- The parameters of `initialize`, as far as the handler reads them. -/
def readInitializeParams (value : Json) : Except String InitializeParams :=
  match (value.get? "protocol_version").bind Json.toString? with
  | some version => .ok ⟨version⟩
  | none => .error "missing field `protocol_version`"

def initializeOp (sessionId : String) : McpOp :=
  .receive ⟨"2.0", some (.ofNat 1), "initialize",
    some (.obj [("protocol_version", .str "2024-11-05")])⟩ (some sessionId)

def pingOp (sessionId : String) : McpOp :=
  .receive ⟨"2.0", some (.ofNat 2), "ping", none⟩ (some sessionId)

/-- The first request in flight goes on; no tool is asked for. -/
def goOn : McpOp :=
  .resume 0 ⟨.ok (.obj []), .error (.invalidParams "Missing tools/call params")⟩

/-- A removal that waits for the ping to be answered. -/
theorem sessions_safe_removal_after :
    SessionsSafe 10
      (run readInitializeParams 10 [initializeOp "s", goOn, pingOp "s", goOn, goOn,
        .removeSession "s"]).log := by
  have hguarded : Guarded (step readInitializeParams) (OvertakesNone readInitializeParams)
      (fresh 10) [initializeOp "s", goOn, pingOp "s", goOn, goOn, .removeSession "s"] := by
    repeat
      apply Guarded.cons
      · decide
    exact Guarded.nil
  exact (sessions_safe readInitializeParams 10 _ hguarded).1 _ List.prefix_rfl

/-- The session is removed while the ping is under way; its write-back puts it into the
store again, and the next ping of the removed session, read after five events, is
answered. -/
theorem removed_session_answers :
    (run readInitializeParams 10
        [initializeOp "s", goOn, pingOp "s", goOn, .removeSession "s"]).state.sessions.lookup
        "s" = none ∧
      (let after := run readInitializeParams 10 [initializeOp "s", goOn, pingOp "s", goOn,
        .removeSession "s", goOn, pingOp "s", goOn, goOn]
      after.responses.getLast? = some (.success (some (.ofNat 2)) (.obj [])) ∧
        .succeeded "s" 5 ∈ after.log ∧ ¬ Standing (after.log.take 5) "s" ∧
        ¬ SessionsSafe 10 after.log) := by
  have hlog : (run readInitializeParams 10 [initializeOp "s", goOn, pingOp "s", goOn,
      .removeSession "s", goOn, pingOp "s", goOn, goOn]).log =
      [.initialized "s", .dispatched "s" (some ⟨"s", 0, 0, true⟩) 0, .removed "s",
        .saved "s" none, .succeeded "s" 1, .dispatched "s" (some ⟨"s", 0, 0, true⟩) 0,
        .saved "s" (some ⟨"s", 0, 0, true⟩), .succeeded "s" 5] := by decide
  have hgone : ¬ Standing ([.initialized "s", .dispatched "s" (some ⟨"s", 0, 0, true⟩) 0,
      .removed "s", .saved "s" none, .succeeded "s" 1] : List SessionEvent) "s" := by
    intro hstanding
    have hmem := hstanding [_, _] [_, _] rfl
    simp at hmem
  refine ⟨by decide, by decide, ?_, ?_, ?_⟩
  · rw [hlog]
    simp
  · rw [hlog]
    exact hgone
  · rw [hlog]
    intro hsafe
    exact hgone (hsafe [_, _, _, _, _, _, _] (.succeeded "s" 5) [] rfl)

/-! ## Answers -/

/-- The ids of the requests an operation brings in. -/
def received : McpOp → List (Option Json)
  | .receive request _ => [request.id]
  | _ => []

/-- The id of the response that a request in flight will get. -/
def owed (r : InFlight) : Option Json :=
  match r.stage with
  | .dispatched (.ok response) => response.id
  | _ => r.request.id

/-- The ids of the responses, those to come included. -/
def answers (s : McpServer) : List (Option Json) :=
  s.responses.map (·.id) ++ s.inFlight.map owed

theorem answers_respond (s : McpServer) (response : JsonRpcResponse) :
    (s.respond response).answers.Perm (response.id :: s.answers) := by
  rw [answers, respond, List.map_append, List.append_assoc]
  exact List.perm_middle

theorem answers_enter (s : McpServer) (request : JsonRpcRequest) (session : McpSession)
    {stage : Stage} (hstage : ∀ readAt, owed ⟨request, session, readAt, stage⟩ = request.id) :
    (s.enter request session stage).answers.Perm (request.id :: s.answers) := by
  rw [answers, enter, List.map_append, ← List.append_assoc, List.map_singleton, hstage]
  exact List.perm_append_singleton _ _

/-- The request at the place gets its response. -/
theorem answers_leave {place : Nat} (hplace : s.inFlight[place]? = some r)
    {state : McpServerState} {log : List SessionEvent} {response : JsonRpcResponse}
    (hid : response.id = owed r) :
    ((({ s with state, log } : McpServer).respond response).leave place).answers.Perm
      s.answers := by
  obtain ⟨hlt, rfl⟩ := List.getElem?_eq_some_iff.mp hplace
  refine List.Perm.trans ?_ (((List.getElem_cons_eraseIdx_perm hlt).map owed).append_left _)
  simp [answers, leave, respond, hid]

theorem answers_dispatchRequest {place : Nat} (hplace : s.inFlight[place]? = some r)
    (hstage : r.stage = .admitted) (tools : ToolAnswers) :
    (s.dispatchRequest place r tools).answers = s.answers := by
  have hsame : owed { r with stage := .dispatched (dispatch r.request tools) } = owed r := by
    unfold owed dispatch Except.map
    grind [JsonRpcResponse.success]
  have hset : (s.inFlight.map owed).set place (owed r) = s.inFlight.map owed := by
    apply List.ext_getElem?
    grind
  rw [answers, dispatchRequest, List.map_set, hsame, hset]
  rfl

theorem answers_step (s : McpServer) (fromValue : Json → Except String InitializeParams)
    (op : McpOp) : (s.step fromValue op).answers.Perm (received op ++ s.answers) := by
  cases op with
  | elapse | drawUuid | removeSession => exact .refl _
  | receive request sessionId =>
      change (s.handleRequest fromValue request sessionId).answers.Perm (request.id :: s.answers)
      unfold handleRequest handleInitialize
      split
      · split
        · exact answers_respond ..
        · split <;> exact answers_enter _ _ _ fun _ => rfl
      · split
        · exact answers_respond ..
        · split
          · exact answers_respond ..
          · split
            · exact answers_respond ..
            · exact answers_enter _ _ _ fun _ => rfl
  | resume place tools =>
      change (s.resume place tools).answers.Perm s.answers
      unfold resume
      split
      · exact .refl _
      · rename_i r hplace
        split
        · rename_i hstage
          exact answers_leave hplace (by rw [owed, hstage]; rfl)
        · rename_i hstage
          exact .of_eq (answers_dispatchRequest hplace hstage tools)
        · rename_i answer hstage
          cases answer with
          | ok response => exact answers_leave hplace (by rw [owed, hstage])
          | error e =>
              refine answers_leave hplace ?_
              rw [owed, hstage]
              cases e <;> rfl

/-- However requests, removals and the clock interleave, each request is answered once and
under its own id, if it is not still in flight. -/
theorem each_request_answered (fromValue : Json → Except String InitializeParams)
    (sessionTimeout : Nat) (ops : List McpOp) :
    (run fromValue sessionTimeout ops).answers.Perm (ops.flatMap received) := by
  rw [run, ← List.foldr_reverse]
  refine .trans ?_ ((List.reverse_perm ops).flatMap_right _)
  induction ops.reverse with
  | nil => exact .refl _
  | cons op rest ih => exact (answers_step _ fromValue op).trans (ih.append_left _)

end McpServer

end Zeptobeam
