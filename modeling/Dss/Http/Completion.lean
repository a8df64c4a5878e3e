import Dss.Http.Calling
import Dss.Http.Exchange

/-!
# Exchanges that are not disturbed

An exchange in which the user of the client makes some calls, one at a time and each
with a callback, the connection does not fail, no timer expires and no callback
throws (`Exchange.Undisturbed`). The calls and their responses can be sent, to a host
without blanks in its name, within the limits, and every call keeps the connection
open (`Serviceable`). Whatever the bytes are cut into and
whichever way completions and handlers are ordered, it ends, and when nothing more
can happen every call has been answered (`exchange_complete`).

Since a call is made only when the one before has been answered, neither session
ever gets bytes behind the message it reads (`ExchangeProgress.server_upTo`,
`ExchangeProgress.client_upTo`); so no read crosses the end of a message.
-/

namespace Dss.Http

open Dss.Lib WireMessage

/-- The user of the client makes the calls `calls` in order, each with a callback and
    none while a callback is in the slot; nothing fails, expires or throws. -/
def Exchange.Undisturbed (calls : List ClientCall) (x : Exchange) : ExchangeEvent → Prop
  | .client (.request c hasCallback) =>
    hasCallback ∧ x.client.callback = none ∧ x.issued ++ [c] <+: calls
  | .client (.io (.fail _ _)) | .client (.io .expire) | .client .throw => False
  | .server (.fail _ _) | .server .expire => False
  | _ => True

/-- The calls can be sent and are answered with what can be sent, the name of the
    host is without blanks, the connection is kept open behind every call, and all
    messages are within the limits. -/
structure Serviceable (sv : Service) (ep : Endpoint) (clientCfg serverCfg : HttpConfiguration)
    (calls : List ClientCall) : Prop where
  service : sv.Sendable
  named : ep.Named
  sendable : ∀ c ∈ calls, c.Sendable
  keepsOpen : sv.KeepsOpen (calls.map (ClientCall.received ep))
  requests : ∀ p ∈ wireCalls ep calls, p.Within serverCfg
  responses : ∀ p ∈ wireAnswers sv (calls.map (ClientCall.received ep)), p.Within clientCfg

variable {sv : Service} {ep : Endpoint} {clientCfg serverCfg : HttpConfiguration}
  {calls : List ClientCall} {x y : Exchange} {e : ExchangeEvent}

/-- The invariant of an exchange that is not disturbed. -/
structure ExchangeProgress (sv : Service) (ep : Endpoint) (clientCfg serverCfg : HttpConfiguration)
    (calls : List ClientCall) (x : Exchange) : Prop where
  state : ExchangeState sv ep clientCfg serverCfg x
  issued : x.issued <+: calls
  server : ServerState sv serverCfg (wireCalls ep calls) x.server
  client : Calling ep clientCfg (wireAnswers sv (calls.map (ClientCall.received ep))) x.issued
    x.client

/-- The ranks of both sessions, the callbacks that are running, and the calls to be
    made. -/
def exchangeRank (sv : Service) (ep : Endpoint) (calls : List ClientCall) (x : Exchange) : ℕ :=
  rank (wireCalls ep calls) x.server.world +
    rank (wireAnswers sv (calls.map (ClientCall.received ep))) x.client.world +
    x.client.stack.length + 4 * (calls.length - x.issued.length)

theorem WireMessage.stream_isPrefix {ps qs : List WireMessage} (h : ps <+: qs) :
    stream ps <+: stream qs := by
  obtain ⟨t, rfl⟩ := h
  rw [stream_append]
  exact List.prefix_append _ _

/-- What is of the messages up to the next one. -/
theorem isPrefix_upToNext {L : Type} {ps : List WireMessage} {w : World L} {b : Bytes} {n : ℕ}
    (h : b <+: stream (ps.take n)) (hn : n ≤ w.delivered.length + 1) : b <+: upToNext ps w :=
  h.trans (stream_isPrefix (List.take_prefix_take_left hn))

namespace ExchangeProgress

theorem start (sv : Service) (ep : Endpoint) (clientCfg serverCfg : HttpConfiguration)
    (calls : List ClientCall) :
    ExchangeProgress sv ep clientCfg serverCfg calls (Exchange.start clientCfg serverCfg) where
  state := .start sv ep clientCfg serverCfg
  issued := List.nil_prefix
  server := .start sv serverCfg _
  client := .connected ep clientCfg _

/-- All calls made are written, and at most the last one is not answered. -/
theorem length_issued (h : ExchangeProgress sv ep clientCfg serverCfg calls x) :
    x.client.world.written.length = x.issued.length ∧
      x.issued.length ≤ x.client.world.delivered.length + 1 := by
  cases hcallback : x.client.callback with
  | none =>
    obtain ⟨-, hwritten, hdelivered⟩ := h.client.issuing.ready h.client.isOpen hcallback
    exact ⟨hwritten, by omega⟩
  | some id =>
    obtain ⟨hdelivered, hwritten, hissued⟩ := h.client.issuing.waiting id hcallback
    exact ⟨hwritten.trans hissued.symm, by omega⟩

theorem length_issued_le (h : ExchangeProgress sv ep clientCfg serverCfg calls x) :
    x.issued.length ≤ (wireAnswers sv (calls.map (ClientCall.received ep))).length := by
  simpa using h.issued.length_le

/-- An event of the server is one of a session with an orderly peer. -/
theorem orderlyPeer_of {e : IoEvent} {ps : List WireMessage}
    (hok : x.Undisturbed calls (.server e)) (he : e.isInternal) : OrderlyPeer ps x.server e := by
  cases e with
  | arrive => cases he
  | fail | expire => exact hok
  | recv | sent | runOp | runWait => exact trivial

section

variable (hserv : Serviceable sv ep clientCfg serverCfg calls)
include hserv

/-- The responses delivered are to requests handled. -/
theorem length_delivered_le (h : ExchangeProgress sv ep clientCfg serverCfg calls x) :
    x.client.world.delivered.length ≤ x.server.handled.length := by
  simpa using (h.state.delivered_isPrefix hserv.service).length_le

/-- The server gets the requests of the calls made. -/
theorem requests_eq (h : ExchangeProgress sv ep clientCfg serverCfg calls x) :
    x.server.world.stream ++ x.toServer =
      stream ((wireCalls ep calls).take x.issued.length) := by
  rw [← wireCalls_take ep h.issued, stream_wireCalls hserv.named h.state.sendable,
    h.state.requests, h.client.issuing.written, h.length_issued.1, List.take_length]

/-- The client gets the answers to the requests handled. -/
theorem responses_eq (h : ExchangeProgress sv ep clientCfg serverCfg calls x) :
    ∃ lost, x.client.world.stream ++ x.toClient ++ lost =
      stream ((wireAnswers sv (calls.map (ClientCall.received ep))).take x.server.handled.length) ∧
      (x.server.world.session.isOpen → lost = []) := by
  obtain ⟨lost, hresponses, hlost⟩ := h.state.responses
  refine ⟨lost, ?_, hlost⟩
  have hhandled := (h.state.handled_isPrefix hserv.named).trans
    (h.issued.map (ClientCall.received ep))
  rw [hresponses, h.state.answers.written, ← stream_wireAnswers hserv.service,
    ← wireAnswers_take sv hhandled]

theorem length_handled_le (h : ExchangeProgress sv ep clientCfg serverCfg calls x) :
    x.server.handled.length ≤ x.issued.length := by
  simpa using (h.state.handled_isPrefix hserv.named).length_le

/-- No byte behind the request being read is on its way to the server. -/
theorem server_upTo (h : ExchangeProgress sv ep clientCfg serverCfg calls x) :
    x.server.world.stream ++ x.toServer <+: upToNext (wireCalls ep calls) x.server.world := by
  rw [h.requests_eq hserv]
  refine isPrefix_upToNext List.prefix_rfl ?_
  have hdelivered := h.length_delivered_le hserv
  have hissued := h.length_issued.2
  rw [h.server.handled, List.length_map] at hdelivered
  omega

/-- No byte behind the response being read is on its way to the client. -/
theorem client_upTo (h : ExchangeProgress sv ep clientCfg serverCfg calls x) :
    x.client.world.stream ++ x.toClient <+:
      upToNext (wireAnswers sv (calls.map (ClientCall.received ep))) x.client.world := by
  obtain ⟨lost, hresponses, -⟩ := h.responses_eq hserv
  refine isPrefix_upToNext ?_ ((h.length_handled_le hserv).trans h.length_issued.2)
  rw [← hresponses]
  exact List.prefix_append _ lost

/-- An event of the client is one of a session that is answered. -/
theorem answered {e : ClientEvent} (hok : x.Undisturbed calls (.client e)) (he : e.isInternal) :
    Answered (wireAnswers sv (calls.map (ClientCall.received ep))) x.client e := by
  cases e with
  | io e =>
    cases e with
    | arrive => cases he
    | fail | expire => exact hok
    | recv | sent | runOp | runWait => exact trivial
  | request c hasCallback =>
    refine ⟨hok.1, hok.2.1, hserv.sendable c (hok.2.2.subset ?_)⟩
    simp
  | connect => cases he
  | throw => exact hok
  | ret => exact trivial

theorem proper (hok : x.Undisturbed calls e) : x.Proper e := by
  cases e with
  | client e =>
    cases e with
    | request c hasCallback =>
      refine ⟨hok.1, fun _ => hok.2.1, hserv.sendable c (hok.2.2.subset ?_)⟩
      simp
    | _ => exact trivial
  | _ => exact trivial

theorem wellFormed_calls : ∀ p ∈ wireCalls ep calls, p.WellFormed RequestLine :=
  wellFormed_wireCalls hserv.named hserv.sendable

theorem accept_calls : ∀ p ∈ wireCalls ep calls, p.accept (L := RequestLine) serverCfg ≠ none :=
  accept_wireCalls hserv.named hserv.sendable hserv.requests

theorem wellFormed_answers :
    ∀ p ∈ wireAnswers sv (calls.map (ClientCall.received ep)), p.WellFormed StatusLine :=
  wellFormed_wireAnswers hserv.service

theorem accept_answers : ∀ p ∈ wireAnswers sv (calls.map (ClientCall.received ep)),
    p.accept (L := StatusLine) clientCfg ≠ none :=
  accept_wireAnswers hserv.service hserv.responses

/-- What is on its way to the server may arrive there. -/
theorem orderlyPeer_arrive (h : ExchangeProgress sv ep clientCfg serverCfg calls x) {n : ℕ}
    (hn : 0 < n ∧ n ≤ x.toServer.length) :
    OrderlyPeer (wireCalls ep calls) x.server (.arrive (x.toServer.take n)) := by
  refine ⟨List.ne_nil_of_length_pos (by rw [List.length_take]; omega), ?_⟩
  refine List.IsPrefix.trans ?_ ((h.server_upTo hserv).trans (upToNext_isPrefix _ _))
  exact (List.prefix_append_right_inj _).2 (List.take_prefix _ _)

theorem answered_arrive (h : ExchangeProgress sv ep clientCfg serverCfg calls x) {n : ℕ}
    (hn : 0 < n ∧ n ≤ x.toClient.length) :
    Answered (wireAnswers sv (calls.map (ClientCall.received ep))) x.client
      (.io (.arrive (x.toClient.take n))) := by
  refine ⟨List.ne_nil_of_length_pos (by rw [List.length_take]; omega), ?_⟩
  refine List.IsPrefix.trans ?_ (h.client_upTo hserv)
  exact (List.prefix_append_right_inj _).2 (List.take_prefix _ _)

/-- A step keeps the invariant. -/
theorem step (h : ExchangeProgress sv ep clientCfg serverCfg calls x)
    (hok : x.Undisturbed calls e) (hs : x.step sv ep e = some y) :
    ExchangeProgress sv ep clientCfg serverCfg calls y := by
  have hstate := h.state.step (proper hserv hok) hs
  cases e with
  | client e =>
    simp only [Exchange.step] at hs
    split at hs
    next => cases hs
    next he =>
      obtain ⟨t, ht, rfl⟩ := Option.map_eq_some_iff.1 hs
      have hanswered := answered hserv hok (by simpa using he)
      refine ⟨hstate, ?_, h.server, h.client.step (wellFormed_answers hserv)
        (accept_answers hserv) h.length_issued_le hanswered ht⟩
      cases e with
      | request c hasCallback => exact hok.2.2
      | _ => simpa [ClientEvent.calls] using h.issued
  | server e =>
    simp only [Exchange.step] at hs
    split at hs
    next => cases hs
    next he =>
      obtain ⟨t, ht, rfl⟩ := Option.map_eq_some_iff.1 hs
      exact ⟨hstate, h.issued, h.server.step (wellFormed_calls hserv)
        (orderlyPeer_of hok (by simpa using he)) ht, h.client⟩
  | reachServer n =>
    simp only [Exchange.step] at hs
    split at hs
    next hn =>
      obtain ⟨t, ht, rfl⟩ := Option.map_eq_some_iff.1 hs
      exact ⟨hstate, h.issued,
        h.server.step (wellFormed_calls hserv) (h.orderlyPeer_arrive hserv hn) ht, h.client⟩
    next => cases hs
  | reachClient n =>
    simp only [Exchange.step] at hs
    split at hs
    next hn =>
      obtain ⟨t, ht, rfl⟩ := Option.map_eq_some_iff.1 hs
      have hclient := h.client.step (wellFormed_answers hserv) (accept_answers hserv)
        h.length_issued_le (h.answered_arrive hserv hn) ht
      simp only [ClientEvent.calls, List.append_nil] at hclient
      exact ⟨hstate, h.issued, h.server, hclient⟩
    next => cases hs

/-- Every step lowers the rank. -/
theorem rank_step (h : ExchangeProgress sv ep clientCfg serverCfg calls x)
    (hok : x.Undisturbed calls e) (hs : x.step sv ep e = some y) :
    exchangeRank sv ep calls y < exchangeRank sv ep calls x := by
  cases e with
  | client e =>
    simp only [Exchange.step] at hs
    split at hs
    next => cases hs
    next he =>
      obtain ⟨t, ht, rfl⟩ := Option.map_eq_some_iff.1 hs
      have hrank := h.client.rank_step (wellFormed_answers hserv) (accept_answers hserv)
        h.length_issued_le (answered hserv hok (by simpa using he)) ht
      have hissued : (x.issued ++ e.calls).length ≤ calls.length := by
        cases e with
        | request c hasCallback => exact hok.2.2.length_le
        | _ => simpa [ClientEvent.calls] using h.issued.length_le
      simp only [exchangeRank, List.length_append] at hissued ⊢
      omega
  | server e =>
    simp only [Exchange.step] at hs
    split at hs
    next => cases hs
    next he =>
      obtain ⟨t, ht, rfl⟩ := Option.map_eq_some_iff.1 hs
      have hinternal : e.isInternal = true := by simpa using he
      have hrank := h.server.rank_step (wellFormed_calls hserv) (orderlyPeer_of hok hinternal) ht
      simp only [exchangeRank]
      omega
  | reachServer n =>
    simp only [Exchange.step] at hs
    split at hs
    next hn =>
      obtain ⟨t, ht, rfl⟩ := Option.map_eq_some_iff.1 hs
      have hrank := h.server.rank_step (wellFormed_calls hserv) (h.orderlyPeer_arrive hserv hn) ht
      simp only [exchangeRank]
      omega
    next => cases hs
  | reachClient n =>
    simp only [Exchange.step] at hs
    split at hs
    next hn =>
      obtain ⟨t, ht, rfl⟩ := Option.map_eq_some_iff.1 hs
      have hrank := h.client.rank_step (wellFormed_answers hserv) (accept_answers hserv)
        h.length_issued_le (h.answered_arrive hserv hn) ht
      simp only [ClientEvent.calls, List.length_nil] at hrank
      simp only [exchangeRank]
      omega
    next => cases hs

/-! ### Where nothing more can happen -/

/-- The server reads a request or writes an answer. -/
theorem server_busy (h : ExchangeProgress sv ep clientCfg serverCfg calls x) (hne : calls ≠ []) :
    x.server.world.session.isOpen ∧ ∃ o, x.server.world.session.ops = [o] := by
  cases h.server.phase with
  | reading o hopen hops => exact ⟨hopen, o, hops⟩
  | writing o _ _ hopen hops => exact ⟨hopen, o, hops⟩
  | closed reqs req _ _ hhandled _ hlast =>
    -- the handler keeps the connection open
    have hprefix := (h.state.handled_isPrefix hserv.named).trans
      (h.issued.map (ClientCall.received ep))
    rw [hhandled] at hprefix
    have hreq := getElem?_of_isPrefix hprefix (i := reqs.length) (a := req) (by simp)
    exact absurd (hserv.keepsOpen _ _ hreq) (by simp [hlast])
  | failed _ _ herrors =>
    cases h.server.orderly.phase with
    | running hnone => exact absurd hnone herrors
    | failed _ _ _ hstuck =>
      have hps : wireCalls ep calls ≠ [] := List.ne_nil_of_length_pos (by
        rw [length_wireCalls]
        exact List.length_pos_of_ne_nil hne)
      rcases h.server.orderly.stuck_cases (wellFormed_calls hserv) hstuck hps with
        ⟨p, hp, hnone⟩ | ⟨-, hcross⟩
      · exact absurd hnone (accept_calls hserv p (List.mem_of_getElem? hp))
      · have hle := (h.server_upTo hserv).length_le
        simp only [World.stream, List.length_append] at hle
        omega

variable (hmax : Maximal (Exchange.step sv ep) (Exchange.Undisturbed calls) x)
include hmax

omit hserv in
theorem client_none {e : ClientEvent} (hok : x.Undisturbed calls (.client e))
    (he : e.isInternal) : ClientSession.step ep x.client e = none := by
  simpa [Exchange.step, he] using hmax (.client e) hok

omit hserv in
theorem server_none {e : IoEvent} (hok : x.Undisturbed calls (.server e)) (he : e.isInternal) :
    x.server.world.io e = none := by
  simpa [Exchange.step, he, ServerSession.step] using hmax (.server e) hok

omit hserv in
/-- No callback is running. -/
theorem stack_eq_nil : x.client.stack = [] := by
  have hret := client_none hmax (e := .ret) trivial rfl
  cases hstack : x.client.stack with
  | nil => rfl
  | cons frame stack => simp [ClientSession.step, hstack] at hret

omit hserv in
theorem client_io_none {e : IoEvent} (hok : x.Undisturbed calls (.client (.io e)))
    (he : e.isInternal) : x.client.world.io e = none := by
  simpa [ClientSession.step, stack_eq_nil hmax] using client_none hmax hok he

omit hserv in
/-- Nothing is on its way. -/
theorem inFlight_eq_nil : x.toServer = [] ∧ x.toClient = [] := by
  have hserver := hmax (.reachServer 1) trivial
  have hclient := hmax (.reachClient 1) trivial
  constructor
  · by_contra hne
    simp [Exchange.step, Nat.succ_le_of_lt (List.length_pos_of_ne_nil hne), ServerSession.step,
      World.io] at hserver
  · by_contra hne
    simp [Exchange.step, Nat.succ_le_of_lt (List.length_pos_of_ne_nil hne), ClientSession.step,
      IoEvent.isHandler, World.io] at hclient

/-- The server has answered all requests it has got. -/
theorem handled_eq (h : ExchangeProgress sv ep clientCfg serverCfg calls x) (hne : calls ≠ []) :
    x.server.handled.length = x.issued.length := by
  refine le_antisymm (h.length_handled_le hserv) ?_
  by_contra hlt
  rw [not_le] at hlt
  have hdelivered : x.server.world.delivered.length = x.server.handled.length := by
    rw [h.server.handled, List.length_map]
  obtain ⟨hopen, o, hops⟩ := h.server_busy hserv hne
  have ho : o ∈ x.server.world.session.ops := by simp [hops]
  have hfind : x.server.world.op? o.id = some o := by simp [World.op?, hops]
  cases hr : o.isRead with
  | false =>
    -- the write or its handler goes on
    rcases (h.server.orderly.running hopen).2 o ho with hp | hp | ⟨hk, -⟩
    · have := server_none hmax (e := .sent o.id) trivial rfl
      simp [World.io, hfind, hopen, hp, hr] at this
    · have := server_none hmax (e := .runOp o.id) trivial rfl
      simp [World.io, hfind, hp] at this
    · rw [Op.isRead_of_readUntil hk] at hr
      cases hr
  | true =>
    have hleft : x.server.world.delivered.length < (wireCalls ep calls).length := by
      rw [hdelivered, length_wireCalls]
      exact hlt.trans_le h.issued.length_le
    rcases h.server.orderly.progress (wellFormed_calls hserv) hopen hleft ho hr with
      ⟨b, hb, -⟩ | ⟨henabled, -⟩ | henabled
    · -- the next request has arrived as a whole
      have hstream := h.requests_eq hserv
      rw [(inFlight_eq_nil hmax).1, List.append_nil] at hstream
      have hle := hb.length_le
      have hge : (upToNext (wireCalls ep calls) x.server.world).length ≤
          x.server.world.stream.length := by
        rw [hstream]
        exact (stream_isPrefix (List.take_prefix_take_left (by omega))).length_le
      rw [List.length_append, List.length_singleton] at hle
      omega
    · simp [server_none hmax (e := .recv o.id 1) trivial rfl] at henabled
    · simp [server_none hmax (e := .runOp o.id) trivial rfl] at henabled

/-- The client has called its callback. -/
theorem callback_eq_none (h : ExchangeProgress sv ep clientCfg serverCfg calls x) :
    x.client.callback = none := by
  by_contra hcallback
  obtain ⟨id, hcallback⟩ := Option.ne_none_iff_exists'.1 hcallback
  obtain ⟨hdelivered, -, hissued⟩ := h.client.issuing.waiting id hcallback
  have hcalls := h.issued.length_le
  have hne : calls ≠ [] := List.ne_nil_of_length_pos (by omega)
  obtain ⟨o, hops⟩ := h.client.busy id hcallback
  have ho : o ∈ x.client.world.session.ops := by simp [hops]
  have hfind : x.client.world.op? o.id = some o := by simp [World.op?, hops]
  have hopen := h.client.isOpen
  have horderly := h.client.lockStep.toOrderlyState
  cases hr : o.isRead with
  | false =>
    rcases (horderly.running hopen).2 o ho with hp | hp | ⟨hk, -⟩
    · have := client_io_none hmax (e := .sent o.id) trivial rfl
      simp [World.io, hfind, hopen, hp, hr] at this
    · have := client_io_none hmax (e := .runOp o.id) trivial rfl
      simp [World.io, hfind, hp] at this
    · rw [Op.isRead_of_readUntil hk] at hr
      cases hr
  | true =>
    have hleft : x.client.world.delivered.length <
        (wireAnswers sv (calls.map (ClientCall.received ep))).length := by
      rw [length_wireAnswers, List.length_map]
      omega
    rcases horderly.progress (wellFormed_answers hserv) hopen hleft ho hr with
      ⟨b, hb, -⟩ | ⟨henabled, -⟩ | henabled
    · -- the response has arrived as a whole
      obtain ⟨lost, hresponses, hlost⟩ := h.responses_eq hserv
      rw [hlost (h.server_busy hserv hne).1, (inFlight_eq_nil hmax).2, List.append_nil,
        List.append_nil, handled_eq hserv hmax h hne] at hresponses
      have hle := hb.length_le
      have hge : (upToNext (wireAnswers sv (calls.map (ClientCall.received ep)))
          x.client.world).length ≤ x.client.world.stream.length := by
        rw [hresponses]
        exact (stream_isPrefix (List.take_prefix_take_left (by omega))).length_le
      rw [List.length_append, List.length_singleton] at hle
      omega
    · simp [client_io_none hmax (e := .recv o.id 1) trivial rfl] at henabled
    · simp [client_io_none hmax (e := .runOp o.id) trivial rfl] at henabled

/-- All calls have been made. -/
theorem issued_eq (h : ExchangeProgress sv ep clientCfg serverCfg calls x) :
    x.issued = calls := by
  obtain ⟨rest, hrest⟩ := h.issued
  cases rest with
  | nil => simpa using hrest
  | cons c rest =>
    have hnext : x.issued ++ [c] <+: calls := ⟨rest, by simp [← hrest]⟩
    have := client_none hmax (e := .request c true) ⟨rfl, callback_eq_none hserv hmax h, hnext⟩ rfl
    simp [ClientSession.step] at this

/-- All requests have been handled and all callbacks called. -/
theorem complete (h : ExchangeProgress sv ep clientCfg serverCfg calls x) :
    x.server.handled = calls.map (ClientCall.received ep) ∧
      x.client.invoked = invocations ((calls.map (ClientCall.received ep)).zipIdx.map
        fun (req, k) => sv.replied k req) := by
  have hissued := issued_eq hserv hmax h
  obtain ⟨-, -, hdelivered⟩ :=
    h.client.issuing.ready h.client.isOpen (callback_eq_none hserv hmax h)
  -- as many responses have been delivered as calls made, so all requests are handled
  have hle := h.length_delivered_le hserv
  have hhandled : x.server.handled = calls.map (ClientCall.received ep) := by
    rw [← hissued]
    exact (h.state.handled_isPrefix hserv.named).eq_of_length_le (by simp; omega)
  refine ⟨hhandled, ?_⟩
  rw [h.client.invoked, ← hhandled]
  exact congrArg invocations ((h.state.delivered_isPrefix hserv.service).eq_of_length_le
    (by simp [hdelivered, hhandled, hissued]))

end

/-- The invariant holds in every run. -/
theorem run (hserv : Serviceable sv ep clientCfg serverCfg calls) {es : List ExchangeEvent}
    (h : Run (Exchange.step sv ep) (Exchange.Undisturbed calls)
      (Exchange.start clientCfg serverCfg) es x) :
    ExchangeProgress sv ep clientCfg serverCfg calls x :=
  h.invariant (start sv ep clientCfg serverCfg calls) fun _ _ _ hI hok hs => hI.step hserv hok hs

end ExchangeProgress

/-- In an exchange that is not disturbed, of calls made one at a time, each with a
    callback, that can be sent and answered within the limits, to a host without
    blanks in its name, and keep the connection open, every run is bounded; and where
    nothing more can happen, the user of the client has made all calls, the request
    handler has got exactly their requests, in order, and exactly their callbacks have
    been called, in order, each with the response to its own request. -/
theorem exchange_complete (sv : Service) (ep : Endpoint) (clientCfg serverCfg : HttpConfiguration)
    (calls : List ClientCall) (hserv : Serviceable sv ep clientCfg serverCfg calls)
    {es : List ExchangeEvent} {x : Exchange} (hrun : Run (Exchange.step sv ep)
      (Exchange.Undisturbed calls) (Exchange.start clientCfg serverCfg) es x) :
    es.length ≤ exchangeRank sv ep calls (Exchange.start clientCfg serverCfg) ∧
    (Maximal (Exchange.step sv ep) (Exchange.Undisturbed calls) x →
      x.issued = calls ∧ x.client.stack = [] ∧
      x.server.handled = calls.map (ClientCall.received ep) ∧
      x.client.invoked = invocations ((calls.map (ClientCall.received ep)).zipIdx.map
        fun (req, k) => sv.replied k req)) := by
  refine ⟨?_, fun hmax => ?_⟩
  · have := hrun.length_add_rank_le (ExchangeProgress.start sv ep clientCfg serverCfg calls)
      (fun _ _ _ hI hok hs => hI.step hserv hok hs)
      fun _ _ _ hI hok hs => hI.rank_step hserv hok hs
    omega
  · have hstate := ExchangeProgress.run hserv hrun
    obtain ⟨hhandled, hinvoked⟩ := ExchangeProgress.complete hserv hmax hstate
    exact ⟨ExchangeProgress.issued_eq hserv hmax hstate, ExchangeProgress.stack_eq_nil hmax,
      hhandled, hinvoked⟩

/-- A call without a body, and one with a body. -/
def twoCalls : List ClientCall := [.get (ascii "/") ∅, .post (ascii "/data") ∅ (ascii "x")]

theorem serviceable_twoCalls :
    Serviceable ⟨textHandler, fun _ => byKey⟩ ⟨ascii "localhost", 80, fun _ => byKey⟩ {} {}
      twoCalls where
  service := textHandler_sendable
  named := (by decide : ∀ b ∈ ascii "localhost", isSpace b = false)
  sendable := by decide +kernel
  keepsOpen _ req hreq := by
    have hkeeps : ∀ req ∈ twoCalls.map (ClientCall.received
        ⟨ascii "localhost", 80, fun _ => byKey⟩), req.headers.keepsAlive := by decide +kernel
    exact hkeeps req (List.mem_of_getElem? hreq)
  requests := by decide +kernel
  responses := by decide +kernel

/-- There is a run in which they are made and answered. -/
theorem exchange_complete_two :
    let sv : Service := ⟨textHandler, fun _ => byKey⟩
    let ep : Endpoint := ⟨ascii "localhost", 80, fun _ => byKey⟩
    ∃ es x, Run (Exchange.step sv ep) (Exchange.Undisturbed twoCalls) (Exchange.start {} {}) es x ∧
      x.server.handled = twoCalls.map (ClientCall.received ep) ∧
      x.client.invoked = invocations ((twoCalls.map (ClientCall.received ep)).zipIdx.map
        fun (req, k) => sv.replied k req) := by
  intro sv ep
  obtain ⟨es, x, hrun, hmax⟩ := Run.exists_maximal (ExchangeProgress.start sv ep {} {} twoCalls)
    (fun _ _ _ hI hok hs => hI.step serviceable_twoCalls hok hs)
    fun _ _ _ hI hok hs => hI.rank_step serviceable_twoCalls hok hs
  obtain ⟨-, -, hhandled, hinvoked⟩ :=
    (exchange_complete sv ep {} {} twoCalls serviceable_twoCalls hrun).2 hmax
  exact ⟨es, x, hrun, hhandled, hinvoked⟩

end Dss.Http
