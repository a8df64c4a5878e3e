import Dss.Http.Issuing
import Mathlib.Data.List.Lex

/-!
# A client and a server on one connection

A client session and a server session with the two byte streams of their
connection between them (`Exchange`). Everything of which nothing is known is an
event: what the user of the client does, how the bytes are cut on their way, the
order in which operations complete and handlers run, failures, timeouts and
exceptions. Where the client makes one call at a time, each with a callback and of
a request that can be sent (`Proper`), the name of the host is without blanks
(`Endpoint.Named`) and the request handler returns what can be sent
(`Service.Sendable`), the exchange is faithful (`exchange_faithful`): the request
handler gets the requests of the client, in order and each at most once, and a
callback that is called with a response gets the response to its own request.

What a payload consists of is added to the bytes on their way as a whole when its
write starts. Any part of it may arrive, at any time, also after the session has
been closed.
-/

namespace Dss.Http

open Dss.Lib Dss.Utils Headers WireMessage

/-- A client session connected to a server session. -/
structure Exchange where
  client : ClientSession
  server : ServerSession
  /-- The bytes on their way to the server. -/
  toServer : Bytes
  /-- The bytes on their way to the client. -/
  toClient : Bytes
  /-- The calls of the client so far. -/
  issued : List ClientCall

inductive ExchangeEvent
  | client (e : ClientEvent)
  | server (e : IoEvent)
  /-- The next `n` bytes arrive at the server. -/
  | reachServer (n : ℕ)
  /-- The next `n` bytes arrive at the client. -/
  | reachClient (n : ℕ)

/-- The event is internal to a session: bytes arrive by way of the exchange only. -/
def IoEvent.isInternal : IoEvent → Bool
  | .arrive _ => false
  | _ => true

/-- The event is internal to a session, or one of the user of the client. The
    connection is the one of the exchange. -/
def ClientEvent.isInternal : ClientEvent → Bool
  | .io e => e.isInternal
  | .connect => false
  | _ => true

/-- The bytes of the payloads written from the world `w` to the world `w'`: a write
    on a closed socket fails. -/
def World.sentSince {L : Type} (w w' : World L) : Bytes :=
  if w'.session.isOpen then (w'.written.drop w.written.length).flatten else []

namespace Exchange

variable (sv : Service) (ep : Endpoint)

/-- The client has connected, and the server has accepted and started its session. -/
def start (clientCfg serverCfg : HttpConfiguration) : Exchange where
  client := .connected clientCfg
  server := .start serverCfg
  toServer := []
  toClient := []
  issued := []

def step (x : Exchange) : ExchangeEvent → Option Exchange
  | .client e =>
    if !e.isInternal then none
    else (x.client.step ep e).map fun client => { x with
      client
      toServer := x.toServer ++ x.client.world.sentSince client.world
      issued := x.issued ++ e.calls }
  | .server e =>
    if !e.isInternal then none
    else (x.server.step sv e).map fun server => { x with
      server
      toClient := x.toClient ++ x.server.world.sentSince server.world }
  | .reachServer n =>
    if 0 < n ∧ n ≤ x.toServer.length then
      (x.server.step sv (.arrive (x.toServer.take n))).map fun server => { x with
        server
        toServer := x.toServer.drop n }
    else none
  | .reachClient n =>
    if 0 < n ∧ n ≤ x.toClient.length then
      (x.client.step ep (.io (.arrive (x.toClient.take n)))).map fun client => { x with
        client
        toClient := x.toClient.drop n }
    else none

end Exchange

/-- The side condition on the steps of an exchange: it concerns the calls only, which
    are made one at a time, each with a callback and of a request that can be sent. -/
def Exchange.Proper (x : Exchange) : ExchangeEvent → Prop
  | .client e => x.client.ProperCall e
  | _ => True

instance (x : Exchange) : ∀ e, Decidable (x.Proper e)
  | .client e => inferInstanceAs (Decidable (x.client.ProperCall e))
  | .server _ | .reachServer _ | .reachClient _ => inferInstanceAs (Decidable True)

variable {sv : Service} {ep : Endpoint}

/-! ## What a step sends -/

namespace World

variable {L : Type} {w w' : World L}

@[simp] theorem written_settle (w : World L) (hook : Option (HookCall L)) :
    (w.settle hook).written = w.written := by
  unfold settle
  split <;> rfl

theorem sentSince_of_eq (h : w'.written = w.written) : w.sentSince w' = [] := by
  simp [sentSince, h]

/-- A payload written while the session is open is sent. -/
theorem sentSince_of_append {payload : Bytes} (h : w'.written = w.written ++ [payload])
    (hopen : w'.session.isOpen) : w.sentSince w' = payload := by
  simp [sentSince, h, hopen]

end World

/-- What a step of a client session adds to its payloads is sent, and only the
    peer adds to what it has to read. -/
theorem ClientSession.sent_step {s t : ClientSession} {e : ClientEvent} (he : e.isInternal)
    (hs : step ep s e = some t) :
    s.world.written.flatten ++ s.world.sentSince t.world = t.world.written.flatten ∧
      t.world.stream = s.world.stream := by
  have hquiet : t.world.written = s.world.written →
      s.world.written.flatten ++ s.world.sentSince t.world = t.world.written.flatten := by
    intro hwritten
    rw [World.sentSince_of_eq hwritten, hwritten, List.append_nil]
  rcases world_step hs with ⟨e, w, hook, rfl, hio, hw⟩ | ⟨payload, hopen, hw⟩ | ⟨-, hw⟩ | hconn | hw
  · have hio := World.io_cases hio
    have hstream : w.stream = s.world.stream := stream_io hio (by rintro bytes rfl; cases he)
    split at hw <;> rw [hw] at hquiet ⊢
    · exact ⟨hquiet hio.written_eq, hstream⟩
    · exact ⟨hquiet ((World.written_settle w hook).trans hio.written_eq),
        (stream_settle w hook).trans hstream⟩
  · have hsent : s.world.sentSince (s.world.call (.doWrite payload)) = payload :=
      World.sentSince_of_append rfl hopen
    rw [hw, hsent]
    exact ⟨by simp [World.call], rfl⟩
  · exact ⟨hquiet (by rw [hw]; rfl), by rw [hw]; rfl⟩
  · cases e <;> cases hconn
    cases he
  · exact ⟨hquiet (by rw [hw]), by rw [hw]⟩

/-- A server session that has been closed stays so. -/
theorem ServerSession.isOpen_of_step {s t : ServerSession} {e : IoEvent}
    (hs : step sv s e = some t) (hopen : t.world.session.isOpen) : s.world.session.isOpen := by
  obtain ⟨w, hook, hio, hcase⟩ := step_cases hs
  have hio := World.io_cases hio
  rcases hcase with ⟨rfl, rfl⟩ | ⟨req, g, rfl, rfl⟩ | ⟨g, rfl, rfl⟩ | ⟨ec, g, rfl, rfl⟩
  · rwa [← hio.isOpen_eq (by simp)]
  · rw [← hio.isOpen_eq (by simp)]
    exact hopen
  · rw [← hio.isOpen_eq (by simp)]
    simp only [onWriteComplete] at hopen
    split at hopen
    · exact hopen
    · simp [World.call] at hopen
  · simp [World.call] at hopen

/-- What a step of a server session adds to its payloads is sent, unless the session
    is closed. -/
theorem ServerSession.sent_step {s t : ServerSession} {e : IoEvent} (hs : step sv s e = some t) :
    ∃ lost, s.world.written.flatten ++ s.world.sentSince t.world ++ lost =
      t.world.written.flatten ∧ (t.world.session.isOpen → lost = []) ∧
      (t.world.session.isOpen = false → s.world.sentSince t.world = []) := by
  have hquiet : t.world.written = s.world.written → ∃ lost,
      s.world.written.flatten ++ s.world.sentSince t.world ++ lost = t.world.written.flatten ∧
      (t.world.session.isOpen → lost = []) ∧
      (t.world.session.isOpen = false → s.world.sentSince t.world = []) := by
    intro hwritten
    have hsent := World.sentSince_of_eq hwritten
    exact ⟨[], by simp [hsent, hwritten], fun _ => rfl, fun _ => hsent⟩
  obtain ⟨w, hook, hio, hcase⟩ := step_cases hs
  have hwritten := (World.io_cases hio).written_eq
  rcases hcase with ⟨-, rfl⟩ | ⟨req, g, -, rfl⟩ | ⟨g, -, rfl⟩ | ⟨ec, g, -, rfl⟩
  · exact hquiet hwritten
  · -- the payload of the answer
    obtain ⟨payload, hpayload⟩ : ∃ payload,
        (onMessageParsed sv { s with world := w } req).world.written =
          s.world.written ++ [payload] := ⟨_, congrArg (· ++ [_]) hwritten⟩
    rw [hpayload]
    cases hopen : (onMessageParsed sv { s with world := w } req).world.session.isOpen with
    | true =>
      rw [World.sentSince_of_append hpayload hopen]
      exact ⟨[], by simp, fun _ => rfl, by simp⟩
    | false =>
      have hsent : s.world.sentSince (onMessageParsed sv { s with world := w } req).world = [] := by
        simp [World.sentSince, hopen]
      exact ⟨payload, by simp [hsent], by simp, fun _ => hsent⟩
  · refine hquiet ?_
    simp only [onWriteComplete]
    split <;> exact hwritten
  · exact hquiet hwritten

theorem ServerSession.stream_step {s t : ServerSession} {e : IoEvent} (he : e.isInternal)
    (hs : step sv s e = some t) : t.world.stream = s.world.stream := by
  obtain ⟨w, hook, hio, hcase⟩ := step_cases hs
  have hstream : w.stream = s.world.stream :=
    stream_io (World.io_cases hio) (by rintro bytes rfl; cases he)
  rcases hcase with ⟨-, rfl⟩ | ⟨req, g, -, rfl⟩ | ⟨g, -, rfl⟩ | ⟨ec, g, -, rfl⟩
  · exact hstream
  · exact hstream
  · simp only [onWriteComplete]
    split <;> exact hstream
  · exact hstream

/-! ## The exchange -/

/-- The invariant of an exchange: what each of the two sessions guarantees, and
    that the bytes read or on their way are those written by the other one. -/
structure ExchangeState (sv : Service) (ep : Endpoint) (clientCfg serverCfg : HttpConfiguration)
    (x : Exchange) : Prop where
  issuing : Issuing ep x.issued x.client
  sendable : ∀ c ∈ x.issued, c.Sendable
  answers : ServerSession.AnswersInOrder sv x.server
  clientCycle : ∃ bs, ReadCycle clientCfg bs x.client.world
  serverCycle : ∃ bs, ReadCycle serverCfg bs x.server.world
  requests : x.server.world.stream ++ x.toServer = x.client.world.written.flatten
  responses : ∃ lost, x.client.world.stream ++ x.toClient ++ lost =
    x.server.world.written.flatten ∧ (x.server.world.session.isOpen → lost = [])

namespace ExchangeState

variable {clientCfg serverCfg : HttpConfiguration} {x y : Exchange} {e : ExchangeEvent}
  {es : List ExchangeEvent}

theorem start (sv : Service) (ep : Endpoint) (clientCfg serverCfg : HttpConfiguration) :
    ExchangeState sv ep clientCfg serverCfg (Exchange.start clientCfg serverCfg) where
  issuing := .connected ep clientCfg
  sendable _ hc := by cases hc
  answers := ServerSession.answersInOrder_start serverCfg
  clientCycle := ⟨[], readCycle_fresh clientCfg⟩
  serverCycle := ServerSession.exists_readCycle
    (.nil : Run (ServerSession.step sv) always (ServerSession.start serverCfg) [] _)
  requests := rfl
  responses := ⟨[], rfl, fun _ => rfl⟩

theorem client_step (h : ExchangeState sv ep clientCfg serverCfg x) {e : ClientEvent}
    {t : ClientSession} (hok : x.client.ProperCall e) (hconn : e.isConnect = false)
    (hs : x.client.step ep e = some t) :
    Issuing ep (x.issued ++ e.calls) t ∧ ∃ bs, ReadCycle clientCfg bs t.world := by
  have hissuing := h.issuing.step hok hconn hs
  obtain ⟨bs, hcycle⟩ := h.clientCycle
  obtain ⟨es, hrun⟩ := ClientSession.exists_run_step hconn
    ((List.length_filter_le _ _).trans hissuing.single) hs
  exact ⟨hissuing, hcycle.run hrun⟩

theorem server_step (h : ExchangeState sv ep clientCfg serverCfg x) {e : IoEvent}
    {t : ServerSession} (hs : x.server.step sv e = some t) :
    ServerSession.AnswersInOrder sv t ∧ ∃ bs, ReadCycle serverCfg bs t.world := by
  obtain ⟨bs, hcycle⟩ := h.serverCycle
  obtain ⟨es, hrun⟩ := ServerSession.exists_run_step (P := fun _ _ => True) h.answers.single
    trivial hs
  exact ⟨h.answers.step hs, hcycle.run hrun⟩

/-- A step keeps the invariant. -/
theorem step (h : ExchangeState sv ep clientCfg serverCfg x) (hok : x.Proper e)
    (hs : x.step sv ep e = some y) : ExchangeState sv ep clientCfg serverCfg y := by
  obtain ⟨lost, hresponses, hlost⟩ := h.responses
  cases e with
  | client e =>
    simp only [Exchange.step] at hs
    split at hs
    next => cases hs
    next he =>
      obtain ⟨t, ht, rfl⟩ := Option.map_eq_some_iff.1 hs
      replace he : e.isInternal := by simpa using he
      have hconn : e.isConnect = false := by cases e <;> first | rfl | cases he
      obtain ⟨hissuing, hcycle⟩ := h.client_step hok hconn ht
      obtain ⟨hsent, hstream⟩ := ClientSession.sent_step he ht
      refine { h with
        issuing := hissuing
        clientCycle := hcycle
        sendable := fun c hc => ?_
        requests := ?_
        responses := ⟨lost, by rw [hstream, hresponses], hlost⟩ }
      · rcases List.mem_append.1 hc with hc | hc
        · exact h.sendable c hc
        · cases e with
          | request c' hasCallback => exact List.mem_singleton.1 hc ▸ hok.2.2
          | _ => cases hc
      · rw [← hsent, ← h.requests, List.append_assoc]
  | server e =>
    simp only [Exchange.step] at hs
    split at hs
    next => cases hs
    next he =>
      obtain ⟨t, ht, rfl⟩ := Option.map_eq_some_iff.1 hs
      replace he : e.isInternal := by simpa using he
      obtain ⟨hanswers, hcycle⟩ := h.server_step ht
      obtain ⟨lost', hsent, hlost', hclosed⟩ := ServerSession.sent_step ht
      refine { h with
        answers := hanswers
        serverCycle := hcycle
        requests := by rw [ServerSession.stream_step he ht, h.requests]
        responses := ?_ }
      cases hopen : t.world.session.isOpen with
      | true =>
        -- it has been open until now, so nothing is lost
        obtain rfl := hlost (ServerSession.isOpen_of_step ht hopen)
        obtain rfl := hlost' hopen
        refine ⟨[], ?_, fun _ => rfl⟩
        rw [← hsent, ← hresponses]
        simp
      | false =>
        refine ⟨lost ++ lost', ?_, fun hopen' => absurd hopen' (by simp)⟩
        rw [← hsent, ← hresponses, hclosed hopen]
        simp
  | reachServer n =>
    simp only [Exchange.step] at hs
    split at hs
    next hn =>
      obtain ⟨t, ht, rfl⟩ := Option.map_eq_some_iff.1 hs
      obtain ⟨hanswers, hcycle⟩ := h.server_step ht
      obtain rfl : { x.server with world := { x.server.world with
          incoming := x.server.world.incoming ++ x.toServer.take n } } = t := Option.some.inj ht
      refine { h with
        answers := hanswers
        serverCycle := hcycle
        requests := ?_ }
      rw [← h.requests]
      simp [World.stream]
    next => cases hs
  | reachClient n =>
    simp only [Exchange.step] at hs
    split at hs
    next hn =>
      obtain ⟨t, ht, rfl⟩ := Option.map_eq_some_iff.1 hs
      have hproper : x.client.ProperCall (.io (.arrive (x.toClient.take n))) := trivial
      obtain ⟨hissuing, hcycle⟩ := h.client_step hproper rfl ht
      simp only [ClientEvent.calls, List.append_nil] at hissuing
      obtain rfl : { x.client with world := { x.client.world with
          incoming := x.client.world.incoming ++ x.toClient.take n } } = t := Option.some.inj ht
      refine { h with
        issuing := hissuing
        clientCycle := hcycle
        responses := ⟨lost, ?_, hlost⟩ }
      rw [← hresponses]
      simp [World.stream]
    next => cases hs

theorem run (hrun : Run (Exchange.step sv ep) Exchange.Proper
    (Exchange.start clientCfg serverCfg) es x) : ExchangeState sv ep clientCfg serverCfg x :=
  hrun.invariant (.start sv ep clientCfg serverCfg) fun _ _ _ hI hok hs => hI.step hok hs

/-- The requests handled are the first ones of those sent. -/
theorem handled_isPrefix (h : ExchangeState sv ep clientCfg serverCfg x) (hep : ep.Named) :
    x.server.handled <+: x.issued.map (ClientCall.received ep) := by
  obtain ⟨bs, hcycle⟩ := h.serverCycle
  have hsend : ∀ c ∈ x.issued.take x.client.world.written.length, c.Sendable := fun c hc =>
    h.sendable c (List.mem_of_mem_take hc)
  -- what the server reads is the stream of the payloads
  have hstream : x.server.world.stream <+:
      stream (wireCalls ep (x.issued.take x.client.world.written.length)) := by
    rw [stream_wireCalls hep hsend, ← h.issuing.written, ← h.requests]
    exact List.prefix_append _ _
  obtain ⟨-, hmsgs, -⟩ := served_of_framedBy (wellFormed_wireCalls hep hsend) hcycle.framed
    (hcycle.prefix_stream.trans hstream)
  rw [h.answers.handled, hmsgs]
  refine (List.take_prefix _ _).trans ((served_isPrefix (parse_wireCalls hep hsend)).trans ?_)
  exact (List.take_prefix _ _).map _

/-- The responses delivered are those to the requests handled. -/
theorem delivered_isPrefix (h : ExchangeState sv ep clientCfg serverCfg x) (hsv : sv.Sendable) :
    x.client.world.delivered.map (·.msg) <+:
      x.server.handled.zipIdx.map fun (req, k) => sv.replied k req := by
  obtain ⟨bs, hcycle⟩ := h.clientCycle
  obtain ⟨lost, hresponses, -⟩ := h.responses
  have hstream : x.client.world.stream <+: stream (wireAnswers sv x.server.handled) := by
    rw [stream_wireAnswers hsv, ← h.answers.written, ← hresponses, List.append_assoc]
    exact List.prefix_append _ _
  obtain ⟨-, hmsgs, -⟩ := served_of_framedBy (wellFormed_wireAnswers hsv) hcycle.framed
    (hcycle.prefix_stream.trans hstream)
  rw [hmsgs]
  exact (List.take_prefix _ _).trans (served_isPrefix (parse_wireAnswers hsv))

/-- A callback called with a response gets the one to the request of its own call. -/
theorem replied (h : ExchangeState sv ep clientCfg serverCfg x) (hsv : sv.Sendable)
    (hep : ep.Named) {i : Invocation} (hi : i ∈ x.client.invoked) {resp : Response}
    (hresp : i.outcome = .ok resp) : ∃ c, x.issued[i.callback]? = some c ∧
      x.server.handled[i.callback]? = some (c.received ep) ∧
      resp = sv.replied i.callback (c.received ep) := by
  -- the response is the one delivered at the place of the call
  have hdelivered := h.issuing.answered i hi resp hresp
  have hreplied := getElem?_of_isPrefix (h.delivered_isPrefix hsv) hdelivered
  rw [List.getElem?_map, Option.map_eq_some_iff] at hreplied
  obtain ⟨⟨req, k⟩, hreq, rfl⟩ := hreplied
  rw [List.getElem?_zipIdx, Option.map_eq_some_iff] at hreq
  obtain ⟨req', hreq, heq⟩ := hreq
  simp only [Nat.zero_add, Prod.mk.injEq] at heq
  obtain ⟨rfl, rfl⟩ := heq
  have hreceived := getElem?_of_isPrefix (h.handled_isPrefix hep) hreq
  rw [List.getElem?_map, Option.map_eq_some_iff] at hreceived
  obtain ⟨c, hc, rfl⟩ := hreceived
  exact ⟨c, hc, hreq, rfl⟩

end ExchangeState

/-- A client session and a server session on one connection, with the bytes cut in
    any way on their way, in any order of completions and handlers, with any
    failures, timeouts and exceptions, where the client makes one call at a time,
    with a callback, its requests and the responses of the handler can be sent, and
    the name of the host is without blanks: the request handler gets the requests of
    the client in order, each at most once, and a callback called with a response
    gets what the handler has returned for the request of this very call. -/
theorem exchange_faithful (sv : Service) (ep : Endpoint) (clientCfg serverCfg : HttpConfiguration)
    (hsv : sv.Sendable) (hep : ep.Named) {es : List ExchangeEvent} {x : Exchange}
    (hrun : Run (Exchange.step sv ep) Exchange.Proper (Exchange.start clientCfg serverCfg) es x) :
    x.server.handled <+: x.issued.map (ClientCall.received ep) ∧
    ∀ i ∈ x.client.invoked, ∀ resp, i.outcome = .ok resp → ∃ c, x.issued[i.callback]? = some c ∧
      x.server.handled[i.callback]? = some (c.received ep) ∧
      resp = sv.replied i.callback (c.received ep) := by
  have hstate := ExchangeState.run hrun
  exact ⟨hstate.handled_isPrefix hep, fun i hi resp hresp => hstate.replied hsv hep hi hresp⟩

/-- The headers in the order of their keys. -/
def byKey : IterationOrder Bytes Bytes :=
  .sortedBy (fun e => [e.1.map UInt8.toNat, e.2.map UInt8.toNat]) fun ⟨k, v⟩ ⟨k', v'⟩ h => by
    have hinj : Function.Injective (List.map UInt8.toNat) :=
      List.map_injective_iff.2 fun _ _ => UInt8.toNat_inj.1
    simp only [List.cons.injEq, and_true] at h
    rw [hinj h.1, hinj h.2]

theorem textHandler_sendable : Service.Sendable ⟨textHandler, fun _ => byKey⟩ :=
  fun _ _ _ h => Except.ok.inj h ▸ encodable_text _ _

/-- A call whose request arrives in two parts, and its response. -/
def oneExchange : List ExchangeEvent :=
  [.client (.request (.get (ascii "/") ∅) true), .client (.io (.sent 0)), .client (.io (.runOp 0)),
    .reachServer 60, .server (.recv 0 60), .reachServer 2, .server (.recv 0 2), .server (.runOp 0),
    .reachClient 128, .client (.io (.recv 1 128)), .client (.io (.runOp 1)), .client .ret]

theorem exchange_faithful_one :
    let sv : Service := ⟨textHandler, fun _ => byKey⟩
    let ep : Endpoint := ⟨ascii "localhost", 80, fun _ => byKey⟩
    ∃ x, Run (Exchange.step sv ep) Exchange.Proper (Exchange.start {} {}) oneExchange x ∧
      x.client.called = [0] ∧
      x.server.handled <+: x.issued.map (ClientCall.received ep) ∧
      ∀ i ∈ x.client.invoked, ∀ resp, i.outcome = .ok resp → ∃ c, x.issued[i.callback]? = some c ∧
        x.server.handled[i.callback]? = some (c.received ep) ∧
        resp = sv.replied i.callback (c.received ep) := by
  intro sv ep
  obtain ⟨x, hx, hcalled⟩ := Option.map_eq_some_iff.1 (by decide +kernel :
    (exec (Exchange.step sv ep) (Exchange.start {} {}) oneExchange).map (·.client.called) =
      some [0])
  have hrun : Run (Exchange.step sv ep) Exchange.Proper _ _ x := .of_exec (by decide +kernel) hx
  have hep : ep.Named := (by decide : ∀ b ∈ ascii "localhost", isSpace b = false)
  exact ⟨x, hrun, hcalled, exchange_faithful sv ep {} {} textHandler_sendable hep hrun⟩

end Dss.Http
