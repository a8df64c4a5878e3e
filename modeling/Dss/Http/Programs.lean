import Dss.Http.Completion
import Dss.Http.HttpServer

/-!
# The programs

The two programs of the repository. The server has a handler for `GET /health`,
which prints a line, and one for `POST /data`, which sends the body back; what else
is requested is not found (`mainAnswer`). The client posts its data, and gets
`/health` in the callback.

* On every connection, in every run of the server, what is written are these
  answers to the requests handled, in order, and a line has been printed for each
  of those for `GET /health` (`serverMain_answers`).
* Where the two are connected and nothing disturbs them, every run ends, and at its
  end the callbacks of the client have been called with its own data and with the
  health of the server (`programs_complete`).
-/

namespace Dss.Http

open Dss.Lib Dss.Utils Headers

/-! ## The server -/

/-- What the handler of `GET /health` prints. -/
def healthLine : Bytes := ascii "incoming request\n"

def healthBody : Bytes := ascii "\x7b\"status\":\"ok\"\x7d"

/-- The handler of `GET /health`. The state of the handlers is what has been written
    to `std::cout`. -/
def healthHandler : RequestHandler Bytes :=
  fun _ out => (.ok (Response.json .ok healthBody), out ++ healthLine)

/-- The handler of `POST /data`. -/
def dataHandler : RequestHandler Bytes := fun req out => (.ok (Response.text .ok req.body), out)

/-- The server when `main` runs the event loop. -/
def serverMain : HttpServer Bytes :=
  ((HttpServer.start []).route .get (ascii "/health") healthHandler).route .post (ascii "/data")
    dataHandler

/-- The event is none of a registration. -/
def ServerEvent.isNetwork {σ : Type} : ServerEvent σ → Bool
  | .accept _ | .session _ _ => true
  | _ => false

def Request.isHealth (req : Request) : Bool := req.routeKey = ⟨.get, ascii "/health"⟩

/-- What the server answers, without the `Connection` header. -/
def mainAnswer (req : Request) : Response :=
  if req.isHealth then Response.json .ok healthBody
  else if req.routeKey = ⟨.post, ascii "/data"⟩ then Response.text .ok req.body
  else Response.text .notFound (ascii "Not Found")

def mainService (order : ℕ → IterationOrder Bytes Bytes) : Service :=
  ⟨fun _ req => .ok (mainAnswer req), order⟩

/-- The number of requests for `GET /health` handled on all connections. -/
def HttpServer.healthCount (s : HttpServer Bytes) : ℕ :=
  (s.sessions.map fun session => session.handled.countP Request.isHealth).sum

theorem handlerFor_serverMain (req : Request) (out : Bytes) :
    serverMain.handlerFor req.routeKey req out =
      (.ok (mainAnswer req), if req.isHealth then out ++ healthLine else out) := by
  simp only [serverMain, HttpServer.handlerFor_route, mainAnswer, Request.isHealth]
  by_cases hdata : req.routeKey = ⟨.post, ascii "/data"⟩
  · simp [hdata, dataHandler]
  by_cases hhealth : req.routeKey = ⟨.get, ascii "/health"⟩
  · simp [hhealth, healthHandler]
  · simp [hdata, hhealth, HttpServer.handlerFor, HttpServer.start, notFoundHandler]

/-- The invariant of the server: it has the handlers of `main`, it has printed a line
    for each request for `GET /health`, and each of its sessions is one with the
    answers of `main`. -/
structure ServesMain (order : ℕ → ℕ → IterationOrder Bytes Bytes) (s : HttpServer Bytes) :
    Prop where
  handlerFor : s.handlerFor = serverMain.handlerFor
  printed : s.app = (List.replicate s.healthCount healthLine).flatten
  sessions : ∀ i session, s.sessions[i]? = some session →
    ∃ es, Run (ServerSession.step (mainService (order i))) always (ServerSession.start {}) es
      session

namespace ServesMain

variable {order : ℕ → ℕ → IterationOrder Bytes Bytes} {s t : HttpServer Bytes}

theorem start (order : ℕ → ℕ → IterationOrder Bytes Bytes) : ServesMain order serverMain where
  handlerFor := rfl
  printed := rfl
  sessions i session hi := by cases hi

theorem dispatch_eq (h : ServesMain order s) (req : Request) :
    s.dispatch req =
      (.ok (mainAnswer req), if req.isHealth then s.app ++ healthLine else s.app) := by
  rw [HttpServer.dispatch, h.handlerFor, handlerFor_serverMain]

theorem accept (h : ServesMain order s) (ec : Option ErrorCode) :
    ServesMain order (s.onAccept ec) := by
  obtain ⟨happ, hroutes, hdefault, hsessions⟩ := s.onAccept_cases ec
  have hhandler : (s.onAccept ec).handlerFor = s.handlerFor := by
    funext key
    simp only [HttpServer.handlerFor, hroutes, hdefault]
  refine ⟨hhandler.trans h.handlerFor, ?_, fun i session hi => ?_⟩
  · have hcount : (s.onAccept ec).healthCount = s.healthCount := by
      rcases hsessions with hsessions | hsessions <;>
        simp [HttpServer.healthCount, hsessions, ServerSession.start]
    rw [happ, hcount, h.printed]
  · rcases hsessions with hsessions | hsessions <;> rw [hsessions] at hi
    · exact h.sessions i session hi
    · rw [List.getElem?_append] at hi
      split at hi
      next => exact h.sessions i session hi
      next =>
        obtain ⟨_, hsession⟩ := List.getElem?_eq_some_iff.1 hi
        obtain rfl : ServerSession.start {} = session := by simpa using hsession
        exact ⟨[], .nil⟩

/-- The requests a session handles in a step are counted. -/
theorem healthCount_afterStep {i : ℕ} {u u' : ServerSession} (hu : s.sessions[i]? = some u)
    (reqs : List Request) (hhandled : u'.handled = u.handled ++ reqs) :
    (s.afterStep i u u').healthCount = s.healthCount + reqs.countP Request.isHealth := by
  obtain ⟨hlt, rfl⟩ := List.getElem?_eq_some_iff.1 hu
  obtain ⟨l₁, l₂, hsplit, -, hset⟩ : ∃ l₁ l₂, s.sessions = l₁ ++ s.sessions[i] :: l₂ ∧
      l₁.length = i ∧ s.sessions.set i u' = l₁ ++ u' :: l₂ := List.exists_of_set hlt
  simp only [HttpServer.healthCount, HttpServer.afterStep, hset]
  rw [congrArg List.sum (congrArg (List.map _) hsplit)]
  simp only [List.map_append, List.map_cons, List.sum_append, List.sum_cons, hhandled,
    List.countP_append]
  omega

theorem session (h : ServesMain order s) {i : ℕ} {e : IoEvent}
    (hs : s.onSession order i e = some t) : ServesMain order t := by
  obtain ⟨u, hu, hs⟩ := Option.bind_eq_some_iff.1 hs
  obtain ⟨u', hstep, rfl⟩ := Option.map_eq_some_iff.1 hs
  -- the session is one with the answers of `main`
  have hsessions : u.step (mainService (order i)) e = some u' → ∀ j session,
      (s.sessions.set i u')[j]? = some session → ∃ es, Run (ServerSession.step
        (mainService (order j))) always (ServerSession.start {}) es session := by
    intro hmain j session hj
    by_cases hji : i = j
    · subst hji
      obtain rfl : u' = session := by
        simpa [(List.getElem?_eq_some_iff.1 hu).1] using hj
      obtain ⟨es, hrun⟩ := h.sessions i u hu
      exact ⟨es ++ [e], hrun.snoc trivial hmain⟩
    · rw [List.getElem?_set_ne hji] at hj
      exact h.sessions j session hj
  rcases ServerSession.step_service hstep with ⟨hhandled, hany⟩ | ⟨req, hhandled, hany⟩
  · refine ⟨h.handlerFor, ?_, hsessions (hany _)⟩
    rw [healthCount_afterStep hu [] (by simpa using hhandled)]
    simpa [HttpServer.afterStep, hhandled] using h.printed
  · have hdispatch := h.dispatch_eq req
    refine ⟨h.handlerFor, ?_, hsessions (hany _ (congrArg Prod.fst hdispatch).symm rfl)⟩
    rw [healthCount_afterStep hu [req] hhandled]
    by_cases hhealth : req.isHealth
    · simp [HttpServer.afterStep, hhandled, hdispatch, hhealth, h.printed, List.replicate_succ']
    · simp [HttpServer.afterStep, hhandled, hdispatch, hhealth, h.printed]

theorem run {es : List (ServerEvent Bytes)} (h : Run (HttpServer.step order)
    (fun _ e => e.isNetwork) serverMain es s) : ServesMain order s := by
  refine h.invariant (start order) fun s e t hI hok hs => ?_
  cases e with
  | route | setDefaultHandler => cases hok
  | accept ec =>
    simp only [HttpServer.step] at hs
    split at hs
    next => exact Option.some.inj hs ▸ hI.accept ec
    next => cases hs
  | session i e => exact hI.session hs

end ServesMain

/-- In every run of the server, what is written on a connection are the answers of
    `main` to the requests handled, in order, and a line has been printed for every
    request for `GET /health`, on whichever connection. -/
theorem serverMain_answers (order : ℕ → ℕ → IterationOrder Bytes Bytes)
    {es : List (ServerEvent Bytes)} {s : HttpServer Bytes}
    (h : Run (HttpServer.step order) (fun _ e => e.isNetwork) serverMain es s) :
    s.app = (List.replicate s.healthCount healthLine).flatten ∧
    ∀ (i : ℕ) session, s.sessions[i]? = some session →
      session.world.written = session.handled.zipIdx.map fun (req, k) =>
        ((mainAnswer req).withConnection req.connection).serialize (order i k) := by
  have hmain := ServesMain.run h
  refine ⟨hmain.printed, fun i session hi => ?_⟩
  obtain ⟨es, hrun⟩ := hmain.sessions i session hi
  have hanswers : ServerSession.AnswersInOrder (mainService (order i)) session :=
    hrun.invariant (ServerSession.answersInOrder_start {}) fun _ _ _ hI _ hs => hI.step hs
  exact hanswers.written

/-- A run in which two requests are handled. -/
theorem serverMain_answers_two :
    let order : ℕ → ℕ → IterationOrder Bytes Bytes := fun _ _ => byKey
    ∃ es s, Run (HttpServer.step order) (fun _ e => e.isNetwork) serverMain es s ∧
      s.handledOn 0 ≠ [] ∧ s.handledOn 1 ≠ [] ∧ s.app = (List.replicate 1 healthLine).flatten := by
  intro order
  obtain ⟨s, hs, hhandled⟩ := Option.map_eq_some_iff.1 (by decide +kernel :
    (exec (HttpServer.step order) serverMain
      [.accept none, .accept none,
        .session 1 (.arrive (ascii "GET /health HTTP/1.1\r\n\r\n")), .session 1 (.recv 0 24),
        .session 1 (.runOp 0), .session 0 (.arrive (ascii "GET / HTTP/1.1\r\n\r\n")),
        .session 0 (.recv 0 18), .session 0 (.runOp 0)]).map
      (fun s => ((s.handledOn 0).length, (s.handledOn 1).length, s.healthCount)) = some (1, 1, 1))
  have hrun : Run (HttpServer.step order) (fun _ e => e.isNetwork) serverMain _ s :=
    .of_exec (by decide +kernel) hs
  obtain ⟨h0, h1, hcount⟩ : (s.handledOn 0).length = 1 ∧ (s.handledOn 1).length = 1 ∧
      s.healthCount = 1 := by simpa using hhandled
  exact ⟨_, s, hrun, List.ne_nil_of_length_pos (by omega), List.ne_nil_of_length_pos (by omega),
    hcount ▸ (serverMain_answers order hrun).1⟩

/-! ## Chained calls -/

/-- The user of the client makes the first call, and each of the others in the callback
    of the one before, which does not return before. -/
def Exchange.Chained (calls : List ClientCall) (x : Exchange) : ExchangeEvent → Prop
  | .client (.request c hasCallback) =>
    x.Undisturbed calls (.client (.request c hasCallback)) ∧
      (x.issued = [] ∨ x.client.stack ≠ [])
  | .client .ret => x.client.callback ≠ none ∨ x.issued = calls
  | e => x.Undisturbed calls e

section

variable {sv : Service} {ep : Endpoint} {clientCfg serverCfg : HttpConfiguration}
  {calls : List ClientCall} {x y : Exchange} {e : ExchangeEvent}

theorem Exchange.Chained.undisturbed (h : x.Chained calls e) : x.Undisturbed calls e := by
  cases e with
  | client e =>
    cases e with
    | request => exact h.1
    | ret => exact trivial
    | _ => exact h
  | _ => exact h

/-- A callback leaves the slot when it is called. -/
theorem ClientSession.waits_io {s t : ClientSession} {e : IoEvent}
    (h : s.callback ≠ none ∨ s.stack ≠ []) (hs : step ep s (.io e) = some t) :
    t.callback ≠ none ∨ t.stack ≠ [] := by
  obtain ⟨w, hook, -, rfl⟩ := step_io hs
  match hook with
  | none => exact h
  | some ⟨.writeComplete, _⟩ => exact h
  | some ⟨.messageParsed _, _⟩ | some ⟨.error _, _⟩ =>
    cases hcallback : s.callback with
    | none => simpa [onHook, onMessageParsed, onError, complete, hcallback] using h
    | some id => simp [onHook, onMessageParsed, onError, complete, invoke]

/-- Between the first call and the last, a callback waits to be called or runs. -/
def Exchange.InChain (calls : List ClientCall) (x : Exchange) : Prop :=
  x.issued = [] ∨ x.issued = calls ∨ x.client.callback ≠ none ∨ x.client.stack ≠ []

theorem Exchange.InChain.step (h : x.InChain calls) (hok : x.Chained calls e)
    (hs : x.step sv ep e = some y) : y.InChain calls := by
  cases e with
  | client e =>
    simp only [Exchange.step] at hs
    split at hs
    next => cases hs
    next he =>
      obtain ⟨t, ht, rfl⟩ := Option.map_eq_some_iff.1 hs
      cases e with
      | io e =>
        simpa [InChain, ClientEvent.calls] using
          h.imp_right (.imp_right fun hwaits => ClientSession.waits_io hwaits ht)
      | request c hasCallback =>
        obtain rfl := Option.some.inj ht
        obtain ⟨⟨hcallback, -, -⟩, -⟩ := hok
        refine .inr (.inr ?_)
        simp only [ClientSession.asyncRequest, hcallback]
        split
        · exact .inr (by simp [ClientSession.invoke])
        · exact .inl (by simp)
      | connect => simp [ClientEvent.isInternal] at he
      | ret =>
        simp only [ClientSession.step] at ht
        split at ht
        next => cases ht
        next =>
          obtain rfl := Option.some.inj ht
          rcases hok with hcallback | hissued
          · exact .inr (.inr (.inl hcallback))
          · exact .inr (.inl (by simpa [ClientEvent.calls] using hissued))
      | throw => cases hok
  | server e =>
    simp only [Exchange.step] at hs
    split at hs
    next => cases hs
    next =>
      obtain ⟨t, ht, rfl⟩ := Option.map_eq_some_iff.1 hs
      exact h
  | reachServer n =>
    simp only [Exchange.step] at hs
    split at hs
    next =>
      obtain ⟨t, ht, rfl⟩ := Option.map_eq_some_iff.1 hs
      exact h
    next => cases hs
  | reachClient n =>
    simp only [Exchange.step] at hs
    split at hs
    next =>
      obtain ⟨t, ht, rfl⟩ := Option.map_eq_some_iff.1 hs
      exact h.imp_right (.imp_right fun hwaits => ClientSession.waits_io hwaits ht)
    next => cases hs

/-- Where a chain of calls cannot go on, nothing can. -/
theorem Exchange.InChain.maximal (h : x.InChain calls) (hissued : x.issued <+: calls)
    (hmax : Maximal (Exchange.step sv ep) (Exchange.Chained calls) x) :
    Maximal (Exchange.step sv ep) (Exchange.Undisturbed calls) x := by
  -- a callback that runs, and has not made its call, makes it
  have hcall : ∀ c, x.client.callback = none → x.issued ++ [c] <+: calls →
      ¬(x.issued = [] ∨ x.client.stack ≠ []) := by
    intro c hcallback hnext hchain
    have := hmax (.client (.request c true)) ⟨⟨rfl, hcallback, hnext⟩, hchain⟩
    simp [Exchange.step, ClientEvent.isInternal, ClientSession.step] at this
  intro e hok
  cases e with
  | client e =>
    cases e with
    | request c hasCallback =>
      obtain ⟨-, hcallback, hnext⟩ := hok
      refine absurd ?_ (hcall c hcallback hnext)
      rcases h with hnil | hall | hne | hstack
      · exact .inl hnil
      · have hlen := hnext.length_le
        simp [hall] at hlen
      · exact absurd hcallback hne
      · exact .inr hstack
    | ret =>
      by_contra hne
      by_cases hret : x.client.callback ≠ none ∨ x.issued = calls
      · exact hne (hmax _ hret)
      · simp only [not_or, not_not] at hret
        obtain ⟨rest, hrest⟩ := hissued
        cases rest with
        | nil => exact hret.2 (by simpa using hrest)
        | cons c rest =>
          refine hcall c hret.1 ⟨rest, by simp [← hrest]⟩ (.inr fun hnil => hne ?_)
          simp [Exchange.step, ClientEvent.isInternal, ClientSession.step, hnil]
    | _ => exact hmax _ hok
  | _ => exact hmax _ hok

end

/-! ## The client -/

/-- What the client is created for. -/
def mainEndpoint (order : ℕ → IterationOrder Bytes Bytes) : Endpoint where
  host := ascii "localhost"
  port := 8080
  order

/-- The first call of `main`. -/
def postData (data : Bytes) : ClientCall := .post (ascii "/data") ∅ data

/-- The call its callback makes. -/
def getHealth : ClientCall := .get (ascii "/health") ∅

def mainCalls (data : Bytes) : List ClientCall := [postData data, getHealth]

/-- What the callback of the first call prints. -/
def printed (resp : Response) : Bytes :=
  ascii "code: " ++ decimal resp.line.statusCode.toUnderlying.toNat ++ [lf] ++
    if resp.body = [] then ascii "empty body received\n"
    else ascii "body: " ++ resp.body ++ [lf]

/-! ### The programs fit together -/

section

variable (order clientOrder : ℕ → IterationOrder Bytes Bytes) {data : Bytes}

theorem mainService_sendable : (mainService order).Sendable := by
  rintro k req _ ⟨⟩
  rw [mainAnswer]
  split_ifs
  · exact encodable_json _ _
  · exact encodable_text _ _
  · exact encodable_text _ _

/-- The headers of the requests, whatever the order in which they are iterated. -/
theorem requestHeaders_main :
    (ClientSession.requestHeaders (mainEndpoint clientOrder) ∅).fieldsLength = 46 ∧
      (ClientSession.requestHeaders (mainEndpoint clientOrder) ∅).lookup connectionKey =
        some (ascii "keep-alive") := by
  change (ClientSession.requestHeaders (mainEndpoint fun _ => byKey) ∅).fieldsLength = _ ∧
    (ClientSession.requestHeaders (mainEndpoint fun _ => byKey) ∅).lookup _ = _
  decide +kernel

/-- The client asks to keep the connection. -/
theorem keepsAlive_received :
    ∀ c ∈ mainCalls data, (c.received (mainEndpoint clientOrder)).headers.keepsAlive := by
  have hkeeps : ∀ q : Request,
      q.headers = ClientSession.requestHeaders (mainEndpoint clientOrder) ∅ →
      Headers.keepsAlive q.withDefaults := by
    intro q hq
    rw [keepsAlive, findMove_eq, show normalize (ascii "connection") = connectionKey by decide,
      q.lookup_withDefaults, hq, (requestHeaders_main clientOrder).2, Option.some_or]
    decide
  simp only [mainCalls, List.forall_mem_cons, List.not_mem_nil, false_implies, implies_true,
    and_true]
  exact ⟨hkeeps _ rfl, hkeeps _ rfl⟩

theorem fieldsLength_content_le (type : Bytes) (n : ℕ) (value : Bytes) :
    Headers.fieldsLength (((Headers.assignMove ∅ (ascii "Content-Type") type).assignMove
      (ascii "Content-Length") (decimal n)).assignMove (ascii "Connection") value) ≤
      type.length + (decimal n).length + value.length + 48 := by
  have hline : ∀ key value : Bytes,
      (fieldLine key value).length = key.length + value.length + 4 := by
    intro key value
    simp only [fieldLine, List.length_append, show (ascii ": ").length = 2 by decide,
      show crlf.length = 2 by decide]
    omega
  have htype : (normalize (ascii "Content-Type")).length = 12 := by decide
  have hlength : (normalize (ascii "Content-Length")).length = 14 := by decide
  have hconn : (normalize (ascii "Connection")).length = 10 := by decide
  simp only [assignMove_eq]
  have h1 := Headers.fieldsLength_insert_le ∅ (normalize (ascii "Content-Type")) type
  have h2 := Headers.fieldsLength_insert_le
    (Finmap.insert (normalize (ascii "Content-Type")) type ∅) (normalize (ascii "Content-Length"))
    (decimal n)
  have h3 := Headers.fieldsLength_insert_le (Finmap.insert (normalize (ascii "Content-Length"))
    (decimal n) (Finmap.insert (normalize (ascii "Content-Type")) type ∅))
    (normalize (ascii "Connection")) value
  have h0 : Headers.fieldsLength ∅ = 0 := rfl
  simp only [hline, htype, hlength, hconn, h0] at h1 h2 h3
  omega

theorem length_decimal_body (hdata : data.length ≤ 1024 * 1024) :
    (decimal data.length).length ≤ 7 :=
  length_decimal_le (by decide) (hdata.trans_lt (by decide))

theorem within_wire {resp : Response} (o : IterationOrder Bytes Bytes)
    (hline : resp.line = ⟨.ok, httpVersion⟩) (hbody : resp.body.length ≤ 1024 * 1024)
    (hfields : resp.headers.fieldsLength ≤ 1024) : (resp.wire o).Within {} := by
  have hlen := resp.length_header_le o
  have hdecimal := length_decimal_body hbody
  rw [hline] at hlen
  simp only [show httpVersion.length = 8 by decide,
    show (decimal (StatusCode.ok).toUnderlying.toNat).length = 3 by decide,
    show (statusTextFor .ok).length = 2 by decide] at hlen
  exact ⟨hlen.trans (by simp only; omega), hbody⟩

theorem within_sent {c : ClientCall} (o : IterationOrder Bytes Bytes)
    (hheaders : c.request.headers = ∅) (hpath : c.request.line.path.length ≤ 7)
    (hbody : c.request.body.length ≤ 1024 * 1024) :
    ((c.sent (mainEndpoint clientOrder)).wire o).Within {} := by
  have hlen := (c.sent (mainEndpoint clientOrder)).length_header_le o
  have hdecimal := length_decimal_body hbody
  have hmethod : ∀ m, (methodToString m).length ≤ 7 := by
    intro m
    cases m <;> decide
  have hversion : c.request.line.version.length = 8 := by cases c <;> rfl
  have hmethod := hmethod c.request.line.methodType
  have hfields : (c.sent (mainEndpoint clientOrder)).headers.fieldsLength = 46 := by
    rw [ClientCall.sent, hheaders, (requestHeaders_main clientOrder).1]
  rw [hfields, show (c.sent (mainEndpoint clientOrder)).line = c.request.line from rfl,
    show (c.sent (mainEndpoint clientOrder)).body = c.request.body from rfl, hversion] at hlen
  exact ⟨hlen.trans (by simp only; omega), hbody⟩

/-- What the server answers to the calls of the client. -/
theorem expected_main (k : ℕ) : ∀ c ∈ mainCalls data,
    expectedResponse (c.received (mainEndpoint clientOrder))
      ((mainService order).handler k (c.received (mainEndpoint clientOrder))) =
      (mainAnswer (c.received (mainEndpoint clientOrder))).withConnection (ascii "keep-alive") := by
  intro c hc
  have hkeep := keepsAlive_received clientOrder c hc
  simp only [keepsAlive, decide_eq_true_eq] at hkeep
  rw [mainService, expectedResponse, Request.connection, if_neg hkeep]

/-- What the client gets. -/
theorem replied_main (k : ℕ) : ∀ c ∈ mainCalls data,
    ((mainService order).replied k (c.received (mainEndpoint clientOrder))).line =
        (mainAnswer (c.received (mainEndpoint clientOrder))).line ∧
      ((mainService order).replied k (c.received (mainEndpoint clientOrder))).body =
        (mainAnswer (c.received (mainEndpoint clientOrder))).body := by
  intro c hc
  rw [Service.replied, expected_main order clientOrder k c hc]
  exact ⟨rfl, rfl⟩

/-- The programs fit together, for data within the limit. -/
theorem serviceable_main (hdata : data.length ≤ 1024 * 1024) :
    Serviceable (mainService order) (mainEndpoint clientOrder) {} {} (mainCalls data) where
  service := mainService_sendable order
  named := (by decide : ∀ b ∈ ascii "localhost", isSpace b = false)
  sendable := by
    have hpath : IsWord (ascii "/data") := ⟨by decide, by decide⟩
    have hpath' : IsWord (ascii "/health") := ⟨by decide, by decide⟩
    simp only [mainCalls, List.forall_mem_cons, List.not_mem_nil, false_implies, implies_true,
      and_true]
    exact ⟨⟨hpath, stored_empty, Finmap.notMem_empty⟩, ⟨hpath', stored_empty, Finmap.notMem_empty⟩⟩
  keepsOpen k req hreq := by
    obtain ⟨c, hc, rfl⟩ := List.mem_map.1 (List.mem_of_getElem? hreq)
    exact keepsAlive_received clientOrder c hc
  requests p hp := by
    obtain ⟨⟨c, k⟩, hc, rfl⟩ := List.mem_map.1 hp
    have hc := List.fst_mem_of_mem_zipIdx hc
    simp only [mainCalls, List.mem_cons, List.not_mem_nil, or_false] at hc
    rcases hc with rfl | rfl
    · exact within_sent clientOrder _ rfl (by decide : (ascii "/data").length ≤ 7) hdata
    · exact within_sent clientOrder _ rfl (by decide : (ascii "/health").length ≤ 7) (Nat.zero_le _)
  responses p hp := by
    obtain ⟨⟨req, k⟩, hreq, rfl⟩ := List.mem_map.1 hp
    obtain ⟨c, hc, rfl⟩ := List.mem_map.1 (List.fst_mem_of_mem_zipIdx hreq)
    simp only [expected_main order clientOrder k c hc]
    simp only [mainCalls, List.mem_cons, List.not_mem_nil, or_false] at hc
    have hconn : (ascii "keep-alive").length = 10 := by decide
    rcases hc with rfl | rfl
    · have hfields := fieldsLength_content_le (ascii "text/plain") data.length (ascii "keep-alive")
      have hdecimal := length_decimal_body hdata
      rw [hconn, show (ascii "text/plain").length = 10 by decide] at hfields
      exact within_wire _ rfl hdata (hfields.trans (by omega))
    · have hfields := fieldsLength_content_le (ascii "application/json") healthBody.length
        (ascii "keep-alive")
      exact within_wire _ rfl (by decide : healthBody.length ≤ _) (hfields.trans (by decide))

end

/-- Where the client program is connected to the server program and nothing disturbs
    them, with data within the limit and whichever order headers are iterated in, every
    run is bounded; and where nothing more can happen, the callbacks have been called
    with the data, which is what has been printed, and with the health of the server,
    and the server has handled the two requests. -/
theorem programs_complete (order clientOrder : ℕ → IterationOrder Bytes Bytes) {data : Bytes}
    (hdata : data.length ≤ 1024 * 1024) {es : List ExchangeEvent} {x : Exchange}
    (hrun : Run (Exchange.step (mainService order) (mainEndpoint clientOrder))
      (Exchange.Chained (mainCalls data)) (Exchange.start {} {}) es x) :
    es.length ≤ exchangeRank (mainService order) (mainEndpoint clientOrder) (mainCalls data)
      (Exchange.start {} {}) ∧
    (Maximal (Exchange.step (mainService order) (mainEndpoint clientOrder))
        (Exchange.Chained (mainCalls data)) x →
      x.server.handled = (mainCalls data).map (ClientCall.received (mainEndpoint clientOrder)) ∧
      ∃ posted health : Response, x.client.invoked = [⟨0, .ok posted⟩, ⟨1, .ok health⟩] ∧
        posted.line.statusCode = .ok ∧ posted.body = data ∧
        printed posted = ascii "code: 200\n" ++ (if data = [] then ascii "empty body received\n"
          else ascii "body: " ++ data ++ [lf]) ∧
        health.line.statusCode = .ok ∧ health.body = healthBody) := by
  have hserv := serviceable_main order clientOrder hdata
  have hundisturbed := hrun.mono fun x e => Exchange.Chained.undisturbed
  refine ⟨?_, fun hmax => ?_⟩
  · have := hundisturbed.length_add_rank_le (ExchangeProgress.start _ _ {} {} _)
      (fun _ _ _ hI hok hs => hI.step hserv hok hs)
      fun _ _ _ hI hok hs => hI.rank_step hserv hok hs
    omega
  · have hstate := ExchangeProgress.run hserv hundisturbed
    have hchain : x.InChain (mainCalls data) :=
      hrun.invariant (.inl rfl) fun _ _ _ hI hok hs => hI.step hok hs
    obtain ⟨hhandled, hinvoked⟩ :=
      hstate.complete hserv (hchain.maximal hstate.issued hmax)
    refine ⟨hhandled, (mainService order).replied 0 ((postData data).received _),
      (mainService order).replied 1 (getHealth.received _), hinvoked, ?_⟩
    obtain ⟨hpostLine, hpostBody⟩ : _ = (Response.text .ok data).line ∧ _ = data :=
      replied_main order clientOrder 0 (postData data) List.mem_cons_self
    obtain ⟨hgetLine, hgetBody⟩ : _ = (Response.json .ok healthBody).line ∧ _ = healthBody :=
      replied_main order clientOrder 1 getHealth
        (by simp [mainCalls] : getHealth ∈ mainCalls data)
    refine ⟨congrArg StatusLine.statusCode hpostLine, hpostBody, ?_,
      congrArg StatusLine.statusCode hgetLine, hgetBody⟩
    rw [printed, hpostLine, hpostBody]
    rfl

/-- There is a run to the end. -/
theorem programs_complete_hello :
    ∃ es x, Run (Exchange.step (mainService fun _ => byKey) (mainEndpoint fun _ => byKey))
      (Exchange.Chained (mainCalls (ascii "hello"))) (Exchange.start {} {}) es x ∧
      ∃ posted health : Response, x.client.invoked = [⟨0, .ok posted⟩, ⟨1, .ok health⟩] ∧
        posted.body = ascii "hello" ∧ health.body = healthBody := by
  have hdata : (ascii "hello").length ≤ 1024 * 1024 := by decide
  have hserv := serviceable_main (fun _ => byKey) (fun _ => byKey) hdata
  obtain ⟨es, x, hrun, hmax⟩ := Run.exists_maximal
    (ExchangeProgress.start _ _ {} {} (mainCalls (ascii "hello")))
    (fun _ _ _ hI hok hs => hI.step hserv (Exchange.Chained.undisturbed hok) hs)
    fun _ _ _ hI hok hs => hI.rank_step hserv (Exchange.Chained.undisturbed hok) hs
  obtain ⟨-, posted, health, hinvoked, -, hposted, -, -, hhealth⟩ :=
    (programs_complete (fun _ => byKey) (fun _ => byKey) hdata hrun).2 hmax
  exact ⟨es, x, hrun, posted, health, hinvoked, hposted, hhealth⟩

end Dss.Http
