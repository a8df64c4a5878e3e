import Dss.Http.Exchange
import Dss.Http.HttpServer

/-!
# Clients connected to a server

A server and any number of clients, each on a connection of its own (`Network`). A
connection is an exchange whose server session is one of the server's, so that
what one client does may change what the request handlers answer another one.

The server takes the steps of a server (`NetworkState.run`), and every connection those
of an exchange on its own (`NetworkState.links`). Together with what is known of both,
every client gets the answers that a server which handles all requests one at a time
gives to its own requests (`network_linearizable`), where clients make one call at a
time, each with a callback, and what is sent can be read back (`Network.Proper`).
-/

namespace Dss.Http

open Dss.Lib

variable {σ : Type}

/-- The client of a connection, with the bytes on their way and its calls so far. -/
structure Link where
  client : ClientSession
  toServer : Bytes
  toClient : Bytes
  issued : List ClientCall

/-- The default limits are within `std::size_t`. -/
theorem HttpConfiguration.fits_default : 16 * 1024 + 1024 * 1024 < 2 ^ 64 := by decide

/-- A client that has connected. -/
def Link.fresh : Link := ⟨.connected { fits := HttpConfiguration.fits_default }, [], [], []⟩

/-- The exchange with a session of the server. -/
def Link.exchange (link : Link) (server : ServerSession) : Exchange :=
  ⟨link.client, server, link.toServer, link.toClient, link.issued⟩

def Exchange.link (x : Exchange) : Link := ⟨x.client, x.toServer, x.toClient, x.issued⟩

@[simp] theorem Exchange.exchange_link (x : Exchange) : x.link.exchange x.server = x := rfl

structure Network (σ : Type) where
  server : HttpServer σ
  /-- The clients, by the number of their connection. -/
  links : List Link

inductive NetworkEvent (σ : Type)
  /-- A registration, or an `async_accept` that fails. -/
  | server (e : ServerEvent σ)
  /-- A client connects, and is accepted. -/
  | connect
  /-- An event of the exchange on a connection. -/
  | link (connection : ℕ) (e : ExchangeEvent)

/-- The event of the server involves no connection. -/
def ServerEvent.isLocal : ServerEvent σ → Bool
  | .route _ _ _ | .setDefaultHandler _ | .accept (some _) => true
  | _ => false

namespace Network

def start (app : σ) : Network σ := ⟨.start app, []⟩

/-- A step, given the order of iteration on the server and what the clients have been
    created for, both by the number of the connection. -/
def step (order : ℕ → ℕ → IterationOrder Bytes Bytes) (ep : ℕ → Endpoint) (n : Network σ) :
    NetworkEvent σ → Option (Network σ)
  | .server e =>
    if !e.isLocal then none
    else (n.server.step order e).map fun server => { n with server }
  | .connect => (n.server.step order (.accept none)).map fun server => ⟨server, n.links ++ [.fresh]⟩
  | .link i e =>
    n.links[i]?.bind fun link => n.server.sessions[i]?.bind fun session =>
      ((link.exchange session).step (n.server.service order i) (ep i) e).map fun x =>
        ⟨n.server.afterStep i session x.server, n.links.set i x.link⟩

end Network

/-- What the handler returns can be serialized. -/
def RequestHandler.Sendable (handler : RequestHandler σ) : Prop :=
  ∀ req app resp, (handler req app).1 = .ok resp → resp.Encodable

def ServerAction.Sendable : ServerAction σ → Prop
  | .route _ handler | .setDefaultHandler handler => handler.Sendable
  | .serve _ _ => True

/-- The side condition on the steps of a network: each client makes one call at a time,
    with a callback and of a request that can be sent, and handlers return what can be
    serialized. -/
def Network.Proper (n : Network σ) : NetworkEvent σ → Prop
  | .server (.route _ _ handler) | .server (.setDefaultHandler handler) => handler.Sendable
  | .link i e => ∀ link ∈ n.links[i]?, ∀ session ∈ n.server.sessions[i]?,
    (link.exchange session).Proper e
  | _ => True

/-! ## Handlers that can be sent -/

theorem handlerAfter_sendable {actions : List (ServerAction σ)} (h : ∀ a ∈ actions, a.Sendable)
    (key : RouteKey) : (handlerAfter actions key).Sendable := by
  have hnotFound : (notFoundHandler : RequestHandler σ).Sendable :=
    fun _ _ _ heq => Except.ok.inj heq ▸ encodable_text _ _
  rw [handlerAfter]
  cases hroute : lastRoute actions key with
  | some handler =>
    obtain ⟨a, ha, heq⟩ := List.exists_of_findSome?_eq_some hroute
    have hsend := h a (List.mem_reverse.1 ha)
    cases a with
    | route key' handler' =>
      simp only [Option.ite_none_right_eq_some, Option.some.injEq] at heq
      exact heq.2 ▸ hsend
    | _ => cases heq
  | none =>
    cases hdefault : lastDefault actions with
    | some handler =>
      obtain ⟨a, ha, heq⟩ := List.exists_of_findSome?_eq_some hdefault
      have hsend := h a (List.mem_reverse.1 ha)
      cases a with
      | setDefaultHandler handler' => exact Option.some.inj heq ▸ hsend
      | _ => cases heq
    | none => exact hnotFound

/-- What the sequential server answers can be serialized. -/
theorem Sequential.encodable (app : σ) {actions : List (ServerAction σ)}
    (h : ∀ a ∈ actions, a.Sendable) :
    ∀ out ∈ (run app actions).outcomes, ∀ resp, out.result = .ok resp → resp.Encodable := by
  induction actions using List.reverseRecOn with
  | nil => rintro out ⟨⟩
  | append_singleton actions a ih =>
    have hactions : ∀ a ∈ actions, a.Sendable := fun a ha => h a (List.mem_append_left _ ha)
    rw [run_concat]
    cases a with
    | serve connection req =>
      intro out hout resp hresp
      rcases List.mem_append.1 hout with hout | hout
      · exact ih hactions out hout resp hresp
      · obtain rfl := List.mem_singleton.1 hout
        rw [actions_run] at hresp
        exact handlerAfter_sendable hactions _ _ _ _ hresp
    | _ => exact ih hactions

/-! ## Steps of an exchange -/

namespace Exchange

variable {sv : Service} {ep : Endpoint} {x y : Exchange} {e : ExchangeEvent}

/-- The server session stays as it is, or takes a step that makes the one of the
    exchange. -/
theorem server_cases (hs : x.step sv ep e = some y) :
    (y.server = x.server ∧ ∀ sv', x.step sv' ep e = some y) ∨
    ∃ e', x.server.step sv e' = some y.server ∧
      ∀ sv', x.server.step sv' e' = some y.server → x.step sv' ep e = some y := by
  cases e with
  | client e =>
    refine .inl ⟨?_, fun _ => hs⟩
    simp only [step] at hs
    split at hs
    next => cases hs
    next =>
      obtain ⟨t, -, rfl⟩ := Option.map_eq_some_iff.1 hs
      rfl
  | server e =>
    simp only [step] at hs ⊢
    split at hs
    next => cases hs
    next he =>
      obtain ⟨t, ht, rfl⟩ := Option.map_eq_some_iff.1 hs
      exact .inr ⟨e, ht, fun sv' ht' => by rw [if_neg he, ht', Option.map_some]⟩
  | reachServer n =>
    simp only [step] at hs ⊢
    split at hs
    next hn =>
      obtain ⟨t, ht, rfl⟩ := Option.map_eq_some_iff.1 hs
      exact .inr ⟨_, ht, fun sv' ht' => by rw [if_pos hn, ht', Option.map_some]⟩
    next => cases hs
  | reachClient n =>
    refine .inl ⟨?_, fun _ => hs⟩
    simp only [step] at hs
    split at hs
    next =>
      obtain ⟨t, -, rfl⟩ := Option.map_eq_some_iff.1 hs
      rfl
    next => cases hs

/-- A step depends on the service for the request it handles only, if it handles one. -/
theorem step_service (hs : x.step sv ep e = some y) :
    (y.server.handled = x.server.handled ∧ ∀ sv', x.step sv' ep e = some y) ∨
    ∃ req, y.server.handled = x.server.handled ++ [req] ∧ ∀ sv' : Service,
      sv'.handler x.server.handled.length req = sv.handler x.server.handled.length req →
      sv'.order x.server.handled.length = sv.order x.server.handled.length →
      x.step sv' ep e = some y := by
  rcases server_cases hs with ⟨hserver, hany⟩ | ⟨e', hstep, hmap⟩
  · exact .inl ⟨by rw [hserver], hany⟩
  · rcases ServerSession.step_service hstep with ⟨hhandled, hany⟩ | ⟨req, hhandled, hany⟩
    · exact .inl ⟨hhandled, fun sv' => hmap sv' (hany sv')⟩
    · exact .inr ⟨req, hhandled, fun sv' hhandler horder => hmap sv' (hany sv' hhandler horder)⟩

end Exchange

/-! ## The network -/

/-- The invariant of a network: its server is one of the runs of a server, and the
    exchanges on its connections are those of the services with the outcomes. -/
structure NetworkState (order : ℕ → ℕ → IterationOrder Bytes Bytes) (ep : ℕ → Endpoint) (app : σ)
    (es : List (ServerEvent σ)) (n : Network σ) : Prop where
  run : Run (HttpServer.step order) always (HttpServer.start app) es n.server
  length : n.links.length = n.server.sessions.length
  sendable : ∀ a ∈ HttpServer.linearization order app es, a.Sendable
  links : ∀ i link session, n.links[i]? = some link → n.server.sessions[i]? = some session →
    ∃ fs, ∀ sv : Service, sv.order = order i →
      (∀ k out, ((Sequential.run app (HttpServer.linearization order app es)).outcomesOn i)[k]? =
        some out → sv.handler k out.req = out.result) →
      Run (Exchange.step sv (ep i)) Exchange.Proper (Exchange.start {} {}) fs
        (link.exchange session)

namespace NetworkState

variable {order : ℕ → ℕ → IterationOrder Bytes Bytes} {ep : ℕ → Endpoint} {app : σ}
  {es : List (ServerEvent σ)} {n m : Network σ}

theorem start (order : ℕ → ℕ → IterationOrder Bytes Bytes) (ep : ℕ → Endpoint) (app : σ) :
    NetworkState order ep app [] (Network.start app) where
  run := .nil
  length := rfl
  sendable a ha := by cases ha
  links i link session hi := by cases hi

theorem linearization_concat (h : NetworkState order ep app es n) {e : ServerEvent σ}
    {s : HttpServer σ} (hs : n.server.step order e = some s) :
    HttpServer.linearization order app (es ++ [e]) =
      HttpServer.linearization order app es ++ n.server.actions e s :=
  h.run.trace_concat hs

/-- A registration, or an accept that fails, leaves the exchanges alone. -/
theorem server_step (h : NetworkState order ep app es n) {e : ServerEvent σ} {s : HttpServer σ}
    (hlocal : e.isLocal) (hok : n.Proper (.server e)) (hs : n.server.step order e = some s) :
    NetworkState order ep app (es ++ [e]) { n with server := s } := by
  have hsessions : s.sessions = n.server.sessions := by
    cases e with
    | route | setDefaultHandler => exact Option.some.inj hs ▸ rfl
    | accept ec =>
      cases ec with
      | none => cases hlocal
      | some ec =>
        simp only [HttpServer.step] at hs
        split at hs
        next =>
          obtain rfl := Option.some.inj hs
          unfold HttpServer.onAccept
          split <;> first | rfl | contradiction
        next => cases hs
    | session => cases hlocal
  have houtcomes : ∀ i, (Sequential.run app (HttpServer.linearization order app es ++
      n.server.actions e s)).outcomesOn i =
      (Sequential.run app (HttpServer.linearization order app es)).outcomesOn i := by
    intro i
    cases e with
    | route | setDefaultHandler =>
      simp [HttpServer.actions, Sequential.run_concat, Sequential.step, Sequential.outcomesOn]
    | accept ec => simp [HttpServer.actions]
    | session => cases hlocal
  refine ⟨h.run.snoc trivial hs, by rw [hsessions, h.length], fun a ha => ?_,
    fun i link session hlink hsession => ?_⟩
  · rw [h.linearization_concat hs] at ha
    rcases List.mem_append.1 ha with ha | ha
    · exact h.sendable a ha
    · cases e with
      | route | setDefaultHandler => exact List.mem_singleton.1 ha ▸ hok
      | accept => cases ha
      | session => cases hlocal
  · rw [hsessions] at hsession
    rw [h.linearization_concat hs, houtcomes]
    exact h.links i link session hlink hsession

/-- A client that connects starts an exchange. -/
theorem connect_step (h : NetworkState order ep app es n) {s : HttpServer σ}
    (hs : n.server.step order (.accept none) = some s) :
    NetworkState order ep app (es ++ [.accept none]) ⟨s, n.links ++ [.fresh]⟩ := by
  have hlin := h.linearization_concat hs
  rw [HttpServer.actions, List.append_nil] at hlin
  have hsessions : s.sessions = n.server.sessions ++ [ServerSession.start {}] := by
    simp only [HttpServer.step] at hs
    split at hs
    next => exact Option.some.inj hs ▸ rfl
    next => cases hs
  refine ⟨h.run.snoc trivial hs, by simp [hsessions, h.length], hlin ▸ h.sendable,
    fun i link session hlink hsession => ?_⟩
  rw [hsessions, List.getElem?_append, ← h.length] at hsession
  rw [List.getElem?_append] at hlink
  split at hlink
  next hlt =>
    rw [if_pos hlt] at hsession
    rw [hlin]
    exact h.links i link session hlink hsession
  next hge =>
    rw [if_neg hge] at hsession
    obtain ⟨_, hlink⟩ := List.getElem?_eq_some_iff.1 hlink
    obtain ⟨_, hsession⟩ := List.getElem?_eq_some_iff.1 hsession
    obtain rfl : Link.fresh = link := by simpa using hlink
    obtain rfl : ServerSession.start {} = session := by simpa using hsession
    exact ⟨[], fun _ _ _ => .nil⟩

/-- The step of the server that a step of an exchange is. -/
theorem exists_server_step (h : NetworkState order ep app es n) {i : ℕ} {e : ExchangeEvent}
    {link : Link} {session : ServerSession} {x : Exchange}
    (hsession : n.server.sessions[i]? = some session)
    (hs : (link.exchange session).step (n.server.service order i) (ep i) e = some x) :
    ∃ es', Run (HttpServer.step order) always (HttpServer.start app) es'
      (n.server.afterStep i session x.server) ∧
      HttpServer.linearization order app es' = HttpServer.linearization order app es ++
        (x.server.handled.drop session.handled.length).map (.serve i) := by
  rcases Exchange.server_cases hs with ⟨hserver, -⟩ | ⟨e', hstep, -⟩
  · have hsame : n.server.afterStep i session x.server = n.server := by
      obtain ⟨hlt, hget⟩ := List.getElem?_eq_some_iff.1 hsession
      rw [hserver]
      simp [HttpServer.afterStep, Link.exchange, ← hget]
    exact ⟨es, by rw [hsame]; exact h.run, by rw [hserver]; simp [Link.exchange]⟩
  · have hserver : n.server.step order (.session i e') =
        some (n.server.afterStep i session x.server) := by
      simp only [HttpServer.step, HttpServer.onSession, hsession, Option.bind_some]
      rw [show session.step (n.server.service order i) e' = some x.server from hstep,
        Option.map_some]
    refine ⟨es ++ [.session i e'], h.run.snoc trivial hserver, ?_⟩
    rw [h.linearization_concat hserver, HttpServer.actions_afterStep hsession]

/-- A step of one exchange is no step of the others. -/
theorem link_step (h : NetworkState order ep app es n) {i : ℕ} {e : ExchangeEvent} {link : Link}
    {session : ServerSession} {x : Exchange} (hlink : n.links[i]? = some link)
    (hsession : n.server.sessions[i]? = some session) (hok : (link.exchange session).Proper e)
    (hs : (link.exchange session).step (n.server.service order i) (ep i) e = some x) :
    ∃ es', NetworkState order ep app es'
      ⟨n.server.afterStep i session x.server, n.links.set i x.link⟩ := by
  obtain ⟨es', hrun, hlin⟩ := h.exists_server_step hsession hs
  have hlinear := Linearized.run h.run
  have hserves := (hlinear.sessions i session hsession).handled
  -- what is appended to the outcomes
  obtain ⟨outs, houtcomes, hstep⟩ : ∃ outs : List Outcome, (∀ j, (Sequential.run app
      (HttpServer.linearization order app es')).outcomesOn j =
      (Sequential.run app (HttpServer.linearization order app es)).outcomesOn j ++
        if i = j then outs else []) ∧ ∀ sv : Service, sv.order = order i →
      (∀ k out, outs[k]? = some out →
        sv.handler (session.handled.length + k) out.req = out.result) →
      (link.exchange session).step sv (ep i) e = some x := by
    rcases Exchange.step_service hs with ⟨hhandled, hany⟩ | ⟨req, hhandled, hany⟩
    · refine ⟨[], fun j => ?_, fun sv _ _ => hany sv⟩
      simp [hlin, show x.server.handled = session.handled from hhandled]
    · refine ⟨[⟨i, req, (n.server.dispatch req).1⟩], fun j => ?_, fun sv horder hout => ?_⟩
      · rw [hlin, show x.server.handled = session.handled ++ [req] from hhandled]
        simpa using hlinear.outcomesOn_serve i j req
      · refine hany sv (hout 0 ⟨i, req, (n.server.dispatch req).1⟩ rfl) ?_
        rw [horder]
        rfl
  refine ⟨es', hrun, by simp [HttpServer.afterStep, h.length], fun a ha => ?_,
    fun j link' session' hlink' hsession' => ?_⟩
  · rw [hlin] at ha
    rcases List.mem_append.1 ha with ha | ha
    · exact h.sendable a ha
    · obtain ⟨req, -, rfl⟩ := List.mem_map.1 ha
      exact trivial
  · rw [houtcomes]
    by_cases hij : i = j
    · subst hij
      obtain rfl : x.link = link' := by
        simpa [(List.getElem?_eq_some_iff.1 hlink).1] using hlink'
      obtain rfl : x.server = session' := by
        simpa [HttpServer.afterStep, (List.getElem?_eq_some_iff.1 hsession).1] using hsession'
      obtain ⟨fs, hfs⟩ := h.links i link session hlink hsession
      rw [if_pos rfl]
      refine ⟨fs ++ [e], fun sv horder hout => (hfs sv horder fun k out hk => hout k out ?_).snoc
        hok (hstep sv horder fun k out hk => hout _ out ?_)⟩
      · rwa [List.getElem?_append_left (List.getElem?_eq_some_iff.1 hk).1]
      · rw [hserves, List.length_map, List.getElem?_append_right (Nat.le_add_right _ _)]
        simpa using hk
    · rw [List.getElem?_set_ne hij] at hlink'
      rw [HttpServer.afterStep, List.getElem?_set_ne hij] at hsession'
      rw [if_neg hij, List.append_nil]
      exact h.links j link' session' hlink' hsession'

theorem step (h : NetworkState order ep app es n) {e : NetworkEvent σ} (hok : n.Proper e)
    (hs : n.step order ep e = some m) : ∃ es', NetworkState order ep app es' m := by
  cases e with
  | server e =>
    simp only [Network.step] at hs
    split at hs
    next => cases hs
    next hlocal =>
      obtain ⟨s, hserver, rfl⟩ := Option.map_eq_some_iff.1 hs
      exact ⟨_, h.server_step (by simpa using hlocal) hok hserver⟩
  | connect =>
    obtain ⟨s, hserver, rfl⟩ := Option.map_eq_some_iff.1 hs
    exact ⟨_, h.connect_step hserver⟩
  | link i e =>
    obtain ⟨link, hlink, hs⟩ := Option.bind_eq_some_iff.1 hs
    obtain ⟨session, hsession, hs⟩ := Option.bind_eq_some_iff.1 hs
    obtain ⟨x, hx, rfl⟩ := Option.map_eq_some_iff.1 hs
    exact h.link_step hlink hsession (hok link hlink session hsession) hx

theorem exists_of_run {fs : List (NetworkEvent σ)}
    (h : Run (Network.step order ep) Network.Proper (Network.start app) fs n) :
    ∃ es, NetworkState order ep app es n :=
  h.invariant (I := fun n => ∃ es, NetworkState order ep app es n) ⟨[], start order ep app⟩
    fun _ _ _ ⟨_, hI⟩ hok hs => hI.step hok hs

/-- The exchange on a connection is one with the outcomes on it. -/
theorem exchangeState (h : NetworkState order ep app es n) {i : ℕ} {link : Link}
    {session : ServerSession} (hlink : n.links[i]? = some link)
    (hsession : n.server.sessions[i]? = some session) :
    ExchangeState (Outcome.service (order i)
      ((Sequential.run app (HttpServer.linearization order app es)).outcomesOn i)) (ep i) {} {}
      (link.exchange session) := by
  obtain ⟨fs, hfs⟩ := h.links i link session hlink hsession
  exact ExchangeState.run (hfs _ rfl fun _ _ => Outcome.service_handler)

/-- The answers of the sequential server can be sent. -/
theorem sendable_service (h : NetworkState order ep app es n) (i : ℕ) :
    (Outcome.service (order i)
      ((Sequential.run app (HttpServer.linearization order app es)).outcomesOn i)).Sendable := by
  intro k req resp hresp
  simp only [Outcome.service] at hresp
  split at hresp
  next out hout =>
    exact Sequential.encodable app h.sendable out
      (List.mem_of_mem_filter (List.mem_of_getElem? hout)) resp hresp
  next => cases hresp

end NetworkState

/-- The response in which the client gets an outcome. -/
def Outcome.received (out : Outcome) : Response :=
  let resp := expectedResponse out.req out.result
  { resp with headers := resp.readBackHeaders }

/-- A server with any number of clients, on connections on which bytes are cut in any
    way and which may fail at any time, with any order of all that happens, where each
    client makes one call at a time, with a callback, requests and responses can be sent,
    and the names of the hosts are without blanks: the server does what one does that
    handles requests one at a time, in the order of a run of its own, and each client
    gets its answers. The requests of the outcomes on a connection are the first ones of
    the calls of its client, in order, and a callback called with a response gets the
    outcome of its own call. -/
theorem network_linearizable (order : ℕ → ℕ → IterationOrder Bytes Bytes) (ep : ℕ → Endpoint)
    (hep : ∀ i, (ep i).Named) (app : σ) {fs : List (NetworkEvent σ)} {n : Network σ}
    (hrun : Run (Network.step order ep) Network.Proper (Network.start app) fs n) :
    ∃ es, Run (HttpServer.step order) always (HttpServer.start app) es n.server ∧
      let q := Sequential.run app (HttpServer.linearization order app es)
      n.server.app = q.app ∧ ∀ (i : ℕ) link, n.links[i]? = some link →
        (q.outcomesOn i).map (·.req) <+: link.issued.map (ClientCall.received (ep i)) ∧
        ∀ inv ∈ link.client.invoked, ∀ resp, inv.outcome = .ok resp →
          ∃ c out, link.issued[inv.callback]? = some c ∧
            (q.outcomesOn i)[inv.callback]? = some out ∧
            out.req = c.received (ep i) ∧ resp = out.received := by
  obtain ⟨es, hstate⟩ := NetworkState.exists_of_run hrun
  have hlinear := Linearized.run hstate.run
  refine ⟨es, hstate.run, hlinear.app_eq, fun i link hlink => ?_⟩
  -- the session of the connection
  have hlt : i < n.server.sessions.length := hstate.length ▸ (List.getElem?_eq_some_iff.1 hlink).1
  have hsession := List.getElem?_eq_getElem hlt
  have hexchange := hstate.exchangeState hlink hsession
  have hhandled := (hlinear.sessions i _ hsession).handled
  refine ⟨hhandled ▸ hexchange.handled_isPrefix (hep i), fun inv hinv resp hresp => ?_⟩
  obtain ⟨c, hc, hreq, hreplied⟩ :=
    hexchange.replied (hstate.sendable_service i) (hep i) hinv hresp
  -- the outcome at the place of the call
  rw [show (link.exchange n.server.sessions[i]).server = n.server.sessions[i] from rfl, hhandled,
    List.getElem?_map, Option.map_eq_some_iff] at hreq
  obtain ⟨out, hout, hreq⟩ := hreq
  refine ⟨c, out, hc, hout, hreq, ?_⟩
  rw [hreplied, Service.replied, ← hreq, Outcome.service_handler hout, Outcome.received]

instance (n : Network σ) (i : ℕ) (e : ExchangeEvent) : Decidable (n.Proper (.link i e)) :=
  inferInstanceAs (Decidable (∀ link ∈ n.links[i]?, ∀ session ∈ n.server.sessions[i]?,
    (link.exchange session).Proper e))

/-- Two clients get their answers from a handler that counts the requests. -/
theorem network_linearizable_two :
    let order : ℕ → ℕ → IterationOrder Bytes Bytes := fun _ _ => byKey
    let ep : ℕ → Endpoint := fun _ => ⟨ascii "localhost", 80, fun _ => byKey⟩
    ∃ fs n, Run (Network.step order ep) Network.Proper (Network.start 0) fs n ∧
      n.links.map (·.client.called) = [[0], [0]] ∧
      ∃ es, Run (HttpServer.step order) always (HttpServer.start 0) es n.server ∧
        (Sequential.run 0 (HttpServer.linearization order 0 es)).app = 2 := by
  intro order ep
  let counting : RequestHandler ℕ := fun req app => (textHandler 0 req, app + 1)
  have hsend : counting.Sendable := fun _ _ _ h => Except.ok.inj h ▸ encodable_text _ _
  have hep : ∀ i, (ep i).Named :=
    fun _ => (by decide : ∀ b ∈ ascii "localhost", isSpace b = false)
  -- the two connections, and then the steps on them
  let n₀ : Network ℕ := ⟨{ HttpServer.start 0 with
    defaultHandler := counting, sessions := [.start {}, .start {}] }, [.fresh, .fresh]⟩
  have hstart : Run (Network.step order ep) Network.Proper (Network.start 0)
      [.server (.setDefaultHandler counting), .connect, .connect] n₀ :=
    ((Run.nil.snoc (e := NetworkEvent.server (.setDefaultHandler counting)) hsend rfl).snoc
      (e := NetworkEvent.connect) trivial rfl).snoc (e := NetworkEvent.connect) trivial rfl
  obtain ⟨n, hn, hcalled⟩ := Option.map_eq_some_iff.1 (by decide +kernel :
    (exec (fun n (p : ℕ × ExchangeEvent) => Network.step order ep n (.link p.1 p.2)) n₀
      (oneExchange.map (1, ·) ++ oneExchange.map (0, ·))).map
      (fun n => (n.links.map (·.client.called), n.server.app)) = some ([[0], [0]], 2))
  have hlinks : Run (fun n (p : ℕ × ExchangeEvent) => Network.step order ep n (.link p.1 p.2))
      (fun n p => n.Proper (.link p.1 p.2)) n₀ _ n := .of_exec (by decide +kernel) hn
  obtain ⟨gs, hrun⟩ := hlinks.simulate (I := fun _ => True) id trivial (fun _ _ _ _ _ _ => trivial)
    fun _ p _ _ hok hs => ⟨[NetworkEvent.link p.1 p.2], Run.single hok hs⟩
  have hrun := hstart.append hrun
  obtain ⟨es, hserver, happ, -⟩ := network_linearizable order ep hep 0 hrun
  obtain ⟨hcalled, hcount⟩ := Prod.mk.inj hcalled
  exact ⟨_, n, hrun, hcalled, es, hserver, happ ▸ hcount⟩

end Dss.Http
