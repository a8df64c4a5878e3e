import Dss.Http.Answers

/-!
# Servers

`http::server`: a table of request handlers, a handler for the requests that match
none of its routes, and a session for every connection accepted. The request
handler of all sessions is `dispatch`. Request handlers are user code, which may
keep a state of its own; they share it, as they run one after the other in the
event loop (`RequestHandler`).

Seen from outside, the server handles the requests of all its connections one at
a time (`Sequential`). With its registrations and requests in the order in which
they happen in a run (`linearization`), every request has the outcome of the
handler registered last, in the state the handlers have left, and every connection
is sent the answers to its own requests (`server_linearizable`).
-/

namespace Dss.Http

open Dss.Lib

/-- `request_handler`, with the state that all handlers share. -/
abbrev RequestHandler (σ : Type) := Request → σ → Except Bytes Response × σ

/-- `server::route_key`. -/
structure RouteKey where
  methodType : Method
  path : Bytes
  deriving DecidableEq

def Request.routeKey (req : Request) : RouteKey := ⟨req.line.methodType, req.line.path⟩

variable {σ : Type}

/-- `http::server`, with the state of its handlers. -/
structure HttpServer (σ : Type) where
  /-- `m_routes`. -/
  routes : UnorderedMap RouteKey (RequestHandler σ)
  /-- `m_default_handler`. -/
  defaultHandler : RequestHandler σ
  /-- Whether `async_accept` is under way. -/
  accepting : Bool
  /-- The sessions, by the number of their connection. -/
  sessions : List ServerSession
  app : σ

inductive ServerEvent (σ : Type)
  /-- `route`. -/
  | route (methodType : Method) (path : Bytes) (handler : RequestHandler σ)
  /-- `set_default_handler`. -/
  | setDefaultHandler (handler : RequestHandler σ)
  /-- `async_accept` completes. -/
  | accept (ec : Option ErrorCode)
  /-- An event of a session. -/
  | session (connection : ℕ) (e : IoEvent)

namespace StatusCode

def notFound : StatusCode := ⟨404⟩

end StatusCode

/-- The default handler set by the constructor. -/
def notFoundHandler : RequestHandler σ :=
  fun _ app => (.ok (Response.text .notFound (ascii "Not Found")), app)

namespace HttpServer

/-- A server as its constructor leaves it. -/
def start (app : σ) : HttpServer σ where
  routes := ∅
  defaultHandler := notFoundHandler
  accepting := true
  sessions := []
  app

def route (s : HttpServer σ) (methodType : Method) (path : Bytes) (handler : RequestHandler σ) :
    HttpServer σ :=
  { s with routes := s.routes.insert ⟨methodType, path⟩ handler }

def setDefaultHandler (s : HttpServer σ) (handler : RequestHandler σ) : HttpServer σ :=
  { s with defaultHandler := handler }

/-- The handler `dispatch` passes a request to. -/
def handlerFor (s : HttpServer σ) (key : RouteKey) : RequestHandler σ :=
  match s.routes.lookup key with
  | some handler => handler
  | none => s.defaultHandler

def dispatch (s : HttpServer σ) (req : Request) : Except Bytes Response × σ :=
  s.handlerFor req.routeKey req s.app

/-- The handler of `async_accept`. -/
def onAccept (s : HttpServer σ) : Option ErrorCode → HttpServer σ
  | some .operationAborted => { s with accepting := false }
  | some _ => s
  | none => { s with sessions := s.sessions ++ [ServerSession.start {}] }

/-- What a session of the server is: its request handler is `dispatch`. -/
def service (order : ℕ → ℕ → IterationOrder Bytes Bytes) (s : HttpServer σ) (connection : ℕ) :
    Service :=
  ⟨fun _ req => (s.dispatch req).1, order connection⟩

/-- After a step of a session. If it has passed a request to its handler, `dispatch`
    has been run, which may have changed the state of the handlers. -/
def afterStep (s : HttpServer σ) (connection : ℕ) (session session' : ServerSession) :
    HttpServer σ :=
  { s with
    sessions := s.sessions.set connection session'
    app := match session'.handled.drop session.handled.length with
      | [] => s.app
      | req :: _ => (s.dispatch req).2 }

/-- An event of a session. -/
def onSession (order : ℕ → ℕ → IterationOrder Bytes Bytes) (s : HttpServer σ) (connection : ℕ)
    (e : IoEvent) : Option (HttpServer σ) :=
  s.sessions[connection]?.bind fun session =>
    (session.step (s.service order connection) e).map (s.afterStep connection session)

def step (order : ℕ → ℕ → IterationOrder Bytes Bytes) (s : HttpServer σ) :
    ServerEvent σ → Option (HttpServer σ)
  | .route methodType path handler => some (s.route methodType path handler)
  | .setDefaultHandler handler => some (s.setDefaultHandler handler)
  | .accept ec => if s.accepting then some (s.onAccept ec) else none
  | .session connection e => s.onSession order connection e

theorem handlerFor_route (s : HttpServer σ) (methodType : Method) (path : Bytes)
    (handler : RequestHandler σ) (key : RouteKey) :
    (s.route methodType path handler).handlerFor key =
      if key = ⟨methodType, path⟩ then handler else s.handlerFor key := by
  rw [handlerFor, route]
  split_ifs with hkey
  · rw [hkey, Finmap.lookup_insert]
  · rw [Finmap.lookup_insert_of_ne _ hkey, handlerFor]

/-- A connection that is accepted gets a session, and nothing else changes but what is
    under way. -/
theorem onAccept_cases (s : HttpServer σ) (ec : Option ErrorCode) :
    (s.onAccept ec).app = s.app ∧ (s.onAccept ec).routes = s.routes ∧
      (s.onAccept ec).defaultHandler = s.defaultHandler ∧
      ((s.onAccept ec).sessions = s.sessions ∨
        (s.onAccept ec).sessions = s.sessions ++ [ServerSession.start {}]) := by
  unfold onAccept
  split
  · exact ⟨rfl, rfl, rfl, .inl rfl⟩
  · exact ⟨rfl, rfl, rfl, .inl rfl⟩
  · exact ⟨rfl, rfl, rfl, .inr rfl⟩

end HttpServer

/-! ## Handling requests one at a time -/

/-- What a sequential server does: it registers handlers and handles requests. -/
inductive ServerAction (σ : Type)
  | route (key : RouteKey) (handler : RequestHandler σ)
  | setDefaultHandler (handler : RequestHandler σ)
  | serve (connection : ℕ) (req : Request)

/-- The handler of the route that was registered last. -/
def lastRoute (actions : List (ServerAction σ)) (key : RouteKey) : Option (RequestHandler σ) :=
  actions.reverse.findSome? fun
    | .route key' handler => if key' = key then some handler else none
    | _ => none

/-- The default handler that was set last. -/
def lastDefault (actions : List (ServerAction σ)) : Option (RequestHandler σ) :=
  actions.reverse.findSome? fun
    | .setDefaultHandler handler => some handler
    | _ => none

/-- The handler of a request after the actions: the one registered last for its route,
    else the default handler set last, else the one that finds nothing. -/
def handlerAfter (actions : List (ServerAction σ)) (key : RouteKey) : RequestHandler σ :=
  (lastRoute actions key).getD ((lastDefault actions).getD notFoundHandler)

/-- A request handled on a connection, and the outcome of its handler. -/
structure Outcome where
  connection : ℕ
  req : Request
  result : Except Bytes Response

/-- A server that handles requests one at a time. -/
structure Sequential (σ : Type) where
  actions : List (ServerAction σ)
  app : σ
  outcomes : List Outcome

namespace Sequential

def start (app : σ) : Sequential σ := ⟨[], app, []⟩

def step (q : Sequential σ) : ServerAction σ → Sequential σ
  | .serve connection req =>
    let (result, app) := handlerAfter q.actions req.routeKey req q.app
    ⟨q.actions ++ [.serve connection req], app, q.outcomes ++ [⟨connection, req, result⟩]⟩
  | a => { q with actions := q.actions ++ [a] }

/-- The server after the actions, in this order. -/
def run (app : σ) (actions : List (ServerAction σ)) : Sequential σ :=
  actions.foldl step (start app)

/-- The outcomes on a connection. -/
def outcomesOn (q : Sequential σ) (connection : ℕ) : List Outcome :=
  q.outcomes.filter (·.connection = connection)

end Sequential

/-- The event of the session of a connection. -/
def ServerEvent.on (connection : ℕ) : ServerEvent σ → Option IoEvent
  | .session connection' e => if connection' = connection then some e else none
  | _ => none

/-- The requests handled on a connection. -/
def HttpServer.handledOn (s : HttpServer σ) (connection : ℕ) : List Request :=
  match s.sessions[connection]? with
  | some session => session.handled
  | none => []

theorem HttpServer.handledOn_eq {s : HttpServer σ} {i : ℕ} {session : ServerSession}
    (h : s.sessions[i]? = some session) : s.handledOn i = session.handled := by
  simp only [handledOn, h]

/-- What a step of a server does: a registration, or a request is handled. -/
def HttpServer.actions (s : HttpServer σ) (e : ServerEvent σ) (t : HttpServer σ) :
    List (ServerAction σ) :=
  match e with
  | .route methodType path handler => [.route ⟨methodType, path⟩ handler]
  | .setDefaultHandler handler => [.setDefaultHandler handler]
  | .accept _ => []
  | .session connection _ =>
    ((t.handledOn connection).drop (s.handledOn connection).length).map (.serve connection)

theorem HttpServer.actions_afterStep {s : HttpServer σ} {i : ℕ} {u : ServerSession}
    (hu : s.sessions[i]? = some u) (u' : ServerSession) (e : IoEvent) :
    s.actions (.session i e) (s.afterStep i u u') =
      (u'.handled.drop u.handled.length).map (.serve i) := by
  have hu' : (s.afterStep i u u').sessions[i]? = some u' := by
    simp [afterStep, (List.getElem?_eq_some_iff.1 hu).1]
  rw [actions, handledOn_eq hu, handledOn_eq hu']

/-- What a server does along a list of events. -/
def HttpServer.linearization (order : ℕ → ℕ → IterationOrder Bytes Bytes) (app : σ) :
    List (ServerEvent σ) → List (ServerAction σ) :=
  trace (HttpServer.step order) HttpServer.actions (HttpServer.start app)

/-! ## Registrations -/

section

variable {actions : List (ServerAction σ)} {key : RouteKey} {handler : RequestHandler σ}

theorem lastRoute_concat (actions : List (ServerAction σ)) (a : ServerAction σ) (key : RouteKey) :
    lastRoute (actions ++ [a]) key = (match a with
      | .route key' handler => if key' = key then some handler else none
      | _ => none).or (lastRoute actions key) := by
  rw [lastRoute, List.reverse_append, List.reverse_singleton, List.singleton_append,
    List.findSome?_cons]
  cases a with
  | route key' handler =>
    by_cases hkey : key' = key
    · simp [hkey]
    · simp [hkey, lastRoute]
  | setDefaultHandler | serve => simp [lastRoute]

theorem lastDefault_concat (actions : List (ServerAction σ)) (a : ServerAction σ) :
    lastDefault (actions ++ [a]) = (match a with
      | .setDefaultHandler handler => some handler
      | _ => none).or (lastDefault actions) := by
  rw [lastDefault, List.reverse_append, List.reverse_singleton, List.singleton_append,
    List.findSome?_cons]
  cases a <;> simp [lastDefault]

theorem Sequential.run_concat (app : σ) (actions : List (ServerAction σ)) (a : ServerAction σ) :
    run app (actions ++ [a]) = (run app actions).step a := by
  simp [run]

/-- A sequential server keeps a record of its actions. -/
@[simp] theorem Sequential.actions_run (app : σ) (actions : List (ServerAction σ)) :
    (run app actions).actions = actions := by
  induction actions using List.reverseRecOn with
  | nil => rfl
  | append_singleton actions a ih =>
    rw [run_concat]
    cases a <;> simp [Sequential.step, ih]

end

/-! ## Sessions of a server -/

/-- A step of a session depends on its service for the request it handles only, if it
    handles one. -/
theorem ServerSession.step_service {sv : Service} {s t : ServerSession} {e : IoEvent}
    (h : step sv s e = some t) :
    (t.handled = s.handled ∧ ∀ sv', step sv' s e = some t) ∨
    ∃ req, t.handled = s.handled ++ [req] ∧ ∀ sv' : Service,
      sv'.handler s.handled.length req = sv.handler s.handled.length req →
      sv'.order s.handled.length = sv.order s.handled.length → step sv' s e = some t := by
  obtain ⟨w, hook, hio, hcase⟩ := step_cases h
  rcases hcase with ⟨rfl, rfl⟩ | ⟨req, g, rfl, rfl⟩ | ⟨g, rfl, rfl⟩ | ⟨ec, g, rfl, rfl⟩
  · exact .inl ⟨rfl, fun sv' => by simp [step, hio, onHook]⟩
  · refine .inr ⟨req, rfl, fun sv' hhandler horder => ?_⟩
    simp [step, hio, onHook, onMessageParsed, hhandler, horder]
  · exact .inl ⟨rfl, fun sv' => by simp [step, hio, onHook]⟩
  · exact .inl ⟨rfl, fun sv' => by simp [step, hio, onHook, onError]⟩

/-- The session has handled the requests of the outcomes, and is one of every service
    that has them. -/
structure ServesOutcomes (order : ℕ → IterationOrder Bytes Bytes) (es : List IoEvent)
    (outcomes : List Outcome) (s : ServerSession) : Prop where
  handled : s.handled = outcomes.map (·.req)
  run : ∀ sv : Service, sv.order = order →
    (∀ k out, outcomes[k]? = some out → sv.handler k out.req = out.result) →
    Run (ServerSession.step sv) always (ServerSession.start {}) es s

/-- What a server has done is what a sequential server does in some order of its
    actions. -/
structure Linearized (order : ℕ → ℕ → IterationOrder Bytes Bytes) (app : σ)
    (es : List (ServerEvent σ)) (s : HttpServer σ) (actions : List (ServerAction σ)) : Prop where
  app_eq : s.app = (Sequential.run app actions).app
  routes : ∀ key, s.routes.lookup key = lastRoute actions key
  default : s.defaultHandler = (lastDefault actions).getD notFoundHandler
  sessions : ∀ i session, s.sessions[i]? = some session → ServesOutcomes (order i)
    (es.filterMap (ServerEvent.on i)) ((Sequential.run app actions).outcomesOn i) session
  absent : ∀ i, s.sessions.length ≤ i →
    (Sequential.run app actions).outcomesOn i = [] ∧ es.filterMap (ServerEvent.on i) = []

namespace Linearized

variable {order : ℕ → ℕ → IterationOrder Bytes Bytes} {app : σ} {es : List (ServerEvent σ)}
  {s t : HttpServer σ} {actions : List (ServerAction σ)} {e : ServerEvent σ}

theorem start (order : ℕ → ℕ → IterationOrder Bytes Bytes) (app : σ) :
    Linearized order app [] (HttpServer.start app) [] where
  app_eq := rfl
  routes key := Finmap.lookup_empty key
  default := rfl
  sessions i session hi := by cases hi
  absent _ _ := ⟨rfl, rfl⟩

/-- The server passes requests to the handlers registered last. -/
theorem handlerFor_eq (h : Linearized order app es s actions) (key : RouteKey) :
    s.handlerFor key = handlerAfter actions key := by
  rw [HttpServer.handlerFor, handlerAfter, h.routes]
  cases lastRoute actions key with
  | none => exact h.default
  | some handler => rfl

/-- A registration changes what is registered only. -/
theorem register (h : Linearized order app es s actions) {a : ServerAction σ}
    (ha : ∀ q : Sequential σ, (q.step a).app = q.app ∧ (q.step a).outcomes = q.outcomes)
    (hon : ∀ i, e.on i = none) (happ : t.app = s.app) (hsessions : t.sessions = s.sessions)
    (hroutes : ∀ key, t.routes.lookup key = lastRoute (actions ++ [a]) key)
    (hdefault : t.defaultHandler = (lastDefault (actions ++ [a])).getD notFoundHandler) :
    Linearized order app (es ++ [e]) t (actions ++ [a]) where
  app_eq := by rw [happ, h.app_eq, Sequential.run_concat, (ha _).1]
  routes := hroutes
  default := hdefault
  sessions i session hi := by
    rw [hsessions] at hi
    simpa [Sequential.run_concat, Sequential.outcomesOn, (ha _).2, hon] using
      h.sessions i session hi
  absent i hi := by
    rw [hsessions] at hi
    simpa [Sequential.run_concat, Sequential.outcomesOn, (ha _).2, hon] using h.absent i hi

/-- A connection that is accepted starts a session. -/
theorem accept (h : Linearized order app es s actions) (ec : Option ErrorCode) :
    Linearized order app (es ++ [.accept ec]) (s.onAccept ec) actions := by
  have hon : ∀ i, (es ++ [ServerEvent.accept ec]).filterMap (ServerEvent.on i) =
      es.filterMap (ServerEvent.on i) := by
    simp [ServerEvent.on]
  obtain ⟨happ, hroutes, hdefault, hsessions | hsessions⟩ := s.onAccept_cases ec
  · refine ⟨happ.trans h.app_eq, hroutes ▸ h.routes, hdefault.trans h.default,
      fun i session hi => ?_, fun i hi => ?_⟩
    · rw [hsessions] at hi
      rw [hon]
      exact h.sessions i session hi
    · rw [hsessions] at hi
      rw [hon]
      exact h.absent i hi
  · refine ⟨happ.trans h.app_eq, hroutes ▸ h.routes, hdefault.trans h.default,
      fun i session hi => ?_, fun i hi => ?_⟩
    · rw [hsessions, List.getElem?_append] at hi
      rw [hon]
      split at hi
      next => exact h.sessions i session hi
      next hge =>
        -- nothing has happened on the new connection
        obtain ⟨houtcomes, hevents⟩ := h.absent i (not_lt.1 hge)
        obtain ⟨hlt, hsession⟩ := List.getElem?_eq_some_iff.1 hi
        obtain rfl : ServerSession.start {} = session := by simpa using hsession
        rw [houtcomes, hevents]
        exact ⟨rfl, fun _ _ _ => .nil⟩
    · rw [hsessions, List.length_append, List.length_singleton] at hi
      rw [hon]
      exact h.absent i (by omega)

/-- The events of the sessions, after an event of one of them. -/
theorem filterMap_on (es : List (ServerEvent σ)) (i j : ℕ) (e : IoEvent) :
    (es ++ [ServerEvent.session i e]).filterMap (ServerEvent.on j) =
      es.filterMap (ServerEvent.on j) ++ if i = j then [e] else [] := by
  split <;> simp_all [ServerEvent.on]

/-- A session takes a step without a request. -/
theorem quiet (h : Linearized order app es s actions) {i : ℕ} {e : IoEvent} {u u' : ServerSession}
    (hu : s.sessions[i]? = some u) (hhandled : u'.handled = u.handled)
    (hstep : ∀ sv, u.step sv e = some u') :
    Linearized order app (es ++ [.session i e]) (s.afterStep i u u') actions where
  app_eq := by simp [HttpServer.afterStep, hhandled, h.app_eq]
  routes := h.routes
  default := h.default
  sessions j session hj := by
    rw [filterMap_on]
    by_cases hji : i = j
    · subst hji
      obtain rfl : u' = session := by
        simpa [HttpServer.afterStep, (List.getElem?_eq_some_iff.1 hu).1] using hj
      have hserves := h.sessions i u hu
      rw [if_pos rfl]
      exact ⟨hhandled.trans hserves.handled, fun sv horder hout =>
        .snoc (hserves.run sv horder hout) trivial (hstep sv)⟩
    · rw [HttpServer.afterStep, List.getElem?_set_ne hji] at hj
      rw [if_neg hji, List.append_nil]
      exact h.sessions j session hj
  absent j hj := by
    rw [HttpServer.afterStep, List.length_set] at hj
    have hji : i ≠ j := fun hij =>
      absurd (List.getElem?_eq_some_iff.1 hu).1 (not_lt.2 (hij ▸ hj))
    rw [filterMap_on, if_neg hji, List.append_nil]
    exact h.absent j hj

/-- The sequential server handles a request as the server does. -/
theorem run_serve (h : Linearized order app es s actions) (i : ℕ) (req : Request) :
    Sequential.run app (actions ++ [.serve i req]) =
      ⟨actions ++ [.serve i req], (s.dispatch req).2,
        (Sequential.run app actions).outcomes ++ [⟨i, req, (s.dispatch req).1⟩]⟩ := by
  have hdispatch : s.dispatch req = handlerAfter actions req.routeKey req
      (Sequential.run app actions).app := by
    rw [HttpServer.dispatch, h.handlerFor_eq, h.app_eq]
  rw [Sequential.run_concat, Sequential.step, hdispatch, Sequential.actions_run]

theorem outcomesOn_serve (h : Linearized order app es s actions) (i j : ℕ) (req : Request) :
    (Sequential.run app (actions ++ [.serve i req])).outcomesOn j =
      (Sequential.run app actions).outcomesOn j ++
        if i = j then [⟨i, req, (s.dispatch req).1⟩] else [] := by
  rw [h.run_serve]
  split <;> simp_all [Sequential.outcomesOn]

/-- A session passes a request to its handler. -/
theorem serve (h : Linearized order app es s actions) {i : ℕ} {e : IoEvent} {u u' : ServerSession}
    {req : Request} (hu : s.sessions[i]? = some u) (hhandled : u'.handled = u.handled ++ [req])
    (hstep : ∀ sv : Service, sv.handler u.handled.length req = (s.dispatch req).1 →
      sv.order = order i → u.step sv e = some u') :
    Linearized order app (es ++ [.session i e]) (s.afterStep i u u')
      (actions ++ [.serve i req]) := by
  refine ⟨?_, fun key => ?_, ?_, fun j session hj => ?_, fun j hj => ?_⟩
  · simp [HttpServer.afterStep, hhandled, h.run_serve]
  · rw [lastRoute_concat]
    exact h.routes key
  · rw [lastDefault_concat]
    exact h.default
  · rw [filterMap_on, h.outcomesOn_serve]
    by_cases hji : i = j
    · subst hji
      obtain rfl : u' = session := by
        simpa [HttpServer.afterStep, (List.getElem?_eq_some_iff.1 hu).1] using hj
      have hserves := h.sessions i u hu
      rw [if_pos rfl, if_pos rfl]
      refine ⟨by rw [hhandled, hserves.handled]; simp, fun sv horder hout => ?_⟩
      have hlen : u.handled.length = ((Sequential.run app actions).outcomesOn i).length := by
        rw [hserves.handled, List.length_map]
      refine .snoc (hserves.run sv horder fun k out hk => hout k out ?_) trivial
        (hstep sv ?_ horder)
      · rwa [List.getElem?_append_left (List.getElem?_eq_some_iff.1 hk).1]
      · exact hout u.handled.length ⟨i, req, (s.dispatch req).1⟩
          (by rw [hlen, List.getElem?_concat_length])
    · rw [HttpServer.afterStep, List.getElem?_set_ne hji] at hj
      rw [if_neg hji, if_neg hji, List.append_nil, List.append_nil]
      exact h.sessions j session hj
  · rw [HttpServer.afterStep, List.length_set] at hj
    have hji : i ≠ j := fun hij =>
      absurd (List.getElem?_eq_some_iff.1 hu).1 (not_lt.2 (hij ▸ hj))
    rw [filterMap_on, h.outcomesOn_serve, if_neg hji, if_neg hji, List.append_nil, List.append_nil]
    exact h.absent j hj

/-- A session takes a step. -/
theorem session (h : Linearized order app es s actions) {i : ℕ} {e : IoEvent}
    (hs : s.onSession order i e = some t) :
    Linearized order app (es ++ [.session i e]) t (actions ++ s.actions (.session i e) t) := by
  obtain ⟨u, hu, hs⟩ := Option.bind_eq_some_iff.1 hs
  obtain ⟨u', hstep, rfl⟩ := Option.map_eq_some_iff.1 hs
  rw [HttpServer.actions_afterStep hu]
  rcases ServerSession.step_service hstep with ⟨hhandled, hany⟩ | ⟨req, hhandled, hany⟩
  · simpa [hhandled] using h.quiet hu hhandled hany
  · simpa [hhandled] using h.serve hu hhandled
      fun sv hhandler horder => hany sv hhandler (by rw [horder]; rfl)

/-- A step of the server is at most one action of a sequential server. -/
theorem step (h : Linearized order app es s actions) (hs : s.step order e = some t) :
    Linearized order app (es ++ [e]) t (actions ++ s.actions e t) := by
  cases e with
  | route methodType path handler =>
    obtain rfl := Option.some.inj hs
    refine h.register (fun _ => ⟨rfl, rfl⟩) (fun _ => rfl) rfl rfl (fun key => ?_) ?_
    · rw [lastRoute_concat]
      by_cases hkey : key = ⟨methodType, path⟩
      · subst hkey
        rw [HttpServer.route, Finmap.lookup_insert]
        simp
      · simp [HttpServer.route, Finmap.lookup_insert_of_ne _ hkey, h.routes, Ne.symm hkey]
    · rw [lastDefault_concat]
      exact h.default
  | setDefaultHandler handler =>
    obtain rfl := Option.some.inj hs
    refine h.register (fun _ => ⟨rfl, rfl⟩) (fun _ => rfl) rfl rfl (fun key => ?_) ?_
    · rw [lastRoute_concat]
      exact h.routes key
    · rw [lastDefault_concat]
      rfl
  | accept ec =>
    simp only [HttpServer.step] at hs
    split at hs
    next =>
      obtain rfl := Option.some.inj hs
      rw [HttpServer.actions, List.append_nil]
      exact h.accept ec
    next => cases hs
  | session connection e => exact h.session hs

theorem run (hrun : Run (HttpServer.step order) always (HttpServer.start app) es s) :
    Linearized order app es s (HttpServer.linearization order app es) := by
  induction hrun with
  | nil => exact start order app
  | snoc hrun _ hs ih =>
    rw [HttpServer.linearization, hrun.trace_concat hs]
    exact ih.step hs

end Linearized

/-! ## The result -/

/-- The service that has the outcomes. -/
def Outcome.service (order : ℕ → IterationOrder Bytes Bytes) (outcomes : List Outcome) :
    Service where
  handler k _ := match outcomes[k]? with
    | some out => out.result
    | none => .error []
  order

theorem Outcome.service_handler {order : ℕ → IterationOrder Bytes Bytes} {outcomes : List Outcome}
    {k : ℕ} {out : Outcome} (h : outcomes[k]? = some out) :
    (service order outcomes).handler k out.req = out.result := by
  simp only [service, h]

/-- A session is sent what its requests are answered with. -/
theorem ServesOutcomes.written {order : ℕ → IterationOrder Bytes Bytes} {es : List IoEvent}
    {outcomes : List Outcome} {s : ServerSession} (h : ServesOutcomes order es outcomes s) :
    s.world.written = outcomes.zipIdx.map fun (out, k) =>
      (expectedResponse out.req out.result).serialize (order k) := by
  have hrun := h.run (Outcome.service order outcomes) rfl fun k out => Outcome.service_handler
  have hanswers : ServerSession.AnswersInOrder (Outcome.service order outcomes) s :=
    hrun.invariant (ServerSession.answersInOrder_start {}) fun _ _ _ hI _ hs => hI.step hs
  rw [hanswers.written, h.handled, ServerSession.answers]
  refine List.ext_getElem? fun k => ?_
  cases hk : outcomes[k]? <;> simp [Outcome.service, hk]

/-- In every run of a server, with any registrations, at any time, any handlers and
    any number of connections, the outcomes are those of a server that handles
    requests one at a time, in the order of the run. Every connection is sent the
    answers to its own requests, in order, and its session is one that knows of no
    other connection. -/
theorem server_linearizable (order : ℕ → ℕ → IterationOrder Bytes Bytes) (app : σ)
    {es : List (ServerEvent σ)} {s : HttpServer σ}
    (h : Run (HttpServer.step order) always (HttpServer.start app) es s) :
    let q := Sequential.run app (HttpServer.linearization order app es)
    s.app = q.app ∧
    ∀ i session, s.sessions[i]? = some session →
      session.handled = (q.outcomesOn i).map (·.req) ∧
      session.world.written = ((q.outcomesOn i).zipIdx.map fun (out, k) =>
        (expectedResponse out.req out.result).serialize (order i k)) ∧
      Run (ServerSession.step (Outcome.service (order i) (q.outcomesOn i))) always
        (ServerSession.start {}) (es.filterMap (ServerEvent.on i)) session := by
  intro q
  have hlin := Linearized.run h
  exact ⟨hlin.app_eq, fun i session hi => ⟨(hlin.sessions i session hi).handled,
    (hlin.sessions i session hi).written,
    (hlin.sessions i session hi).run _ rfl fun _ _ => Outcome.service_handler⟩⟩

/-- A handler counts the requests, and another is registered in its place after the
    first of two. -/
theorem server_linearizable_two :
    let order : ℕ → ℕ → IterationOrder Bytes Bytes := fun _ _ => default
    ∃ es s, Run (HttpServer.step order) always (HttpServer.start 0) es s ∧
      s.handledOn 0 = [getRequest ∅] ∧ s.handledOn 1 = [getRequest ∅] ∧
      (Sequential.run 0 (HttpServer.linearization order 0 es)).app = 11 := by
  intro order
  let counting (n : ℕ) : RequestHandler ℕ := fun _ app => (.ok (Response.text .ok []), app + n)
  obtain ⟨s, hs, happ⟩ := Option.map_eq_some_iff.1 (by decide +kernel :
    (exec (HttpServer.step order) (HttpServer.start 0)
      [.route .get (ascii "/") (counting 1), .accept none, .accept none,
        .session 1 (.arrive (ascii "GET / HTTP/1.1\r\n\r\n")), .session 1 (.recv 0 18),
        .session 1 (.runOp 0), .route .get (ascii "/") (counting 10),
        .session 0 (.arrive (ascii "GET / HTTP/1.1\r\n\r\n")), .session 0 (.recv 0 18),
        .session 0 (.runOp 0)]).map (fun s => (s.app, s.handledOn 0, s.handledOn 1)) =
      some (11, [getRequest ∅], [getRequest ∅]))
  have hrun : Run (HttpServer.step order) always (HttpServer.start 0) _ s :=
    .of_exec (by decide +kernel) hs
  obtain ⟨happ, hhandled⟩ := Prod.mk.inj happ
  exact ⟨_, s, hrun, (Prod.mk.inj hhandled).1, (Prod.mk.inj hhandled).2,
    (server_linearizable order 0 hrun).1 ▸ happ⟩

end Dss.Http
