import Dss.Http.Session
import Dss.Lib.Run

/-!
# Client sessions

`client_session` writes requests and reads responses. The callback of a request
is stored in one slot, `m_callback`, taken out of it when a response or an error
arrives, and then called. Callbacks are user code: while one runs, it may issue
requests, return, or throw. The machine keeps the callbacks that are running on
a stack (`Frame`), and the event loop runs a handler only when there are none.

Every request is given a number, which stands for its callback.
-/

namespace Dss.Http

open Dss.Lib

/-- The calls of `http::client`. -/
inductive ClientCall
  | get (path : Bytes) (headers : Headers)
  | post (path : Bytes) (headers : Headers) (body : Bytes)
  | put (path : Bytes) (headers : Headers) (body : Bytes)
  | delete_ (path : Bytes) (headers : Headers)

/-- The request a call passes to `async_request`. -/
def ClientCall.request : ClientCall → Request
  | .get path headers => ⟨⟨.get, path, httpVersion⟩, headers, []⟩
  | .post path headers body => ⟨⟨.post, path, httpVersion⟩, headers, body⟩
  | .put path headers body => ⟨⟨.put, path, httpVersion⟩, headers, body⟩
  | .delete_ path headers => ⟨⟨.delete, path, httpVersion⟩, headers, []⟩

/-- What a session is created with, and the order in which the headers of the
    `n`-th request are iterated. -/
structure Endpoint where
  /-- `m_host`. -/
  host : Bytes
  /-- `m_port`. -/
  port : UInt16
  order : ℕ → IterationOrder Bytes Bytes

/-- A running callback, called within the `try` block of `on_headers_read` or
    not. -/
structure Frame where
  guarded : Bool
  deriving DecidableEq, Repr

/-- A call of a callback: `cb({}, resp)`, or `cb(ec, {})`. -/
structure Invocation where
  callback : ℕ
  outcome : Except ErrorCode Response

structure ClientSession where
  world : World StatusLine
  /-- `m_keep_alive`. -/
  keepAlive : Bool
  /-- `m_callback`. -/
  callback : Option ℕ
  /-- The callbacks that are running, the innermost first. -/
  stack : List Frame
  /-- The number of the next request. -/
  nextRequest : ℕ
  /-- The requests accepted with a callback. -/
  accepted : List ℕ
  /-- The callbacks called. -/
  invoked : List Invocation
  /-- The callbacks that were in `m_callback` when a later request was accepted. -/
  replaced : List ℕ

inductive ClientEvent
  | io (e : IoEvent)
  /-- A call of the client, with a callback or a null one. -/
  | request (c : ClientCall) (hasCallback : Bool)
  /-- `async_connect` closes the socket and opens it to the peer. -/
  | connect
  /-- The running callback returns. -/
  | ret
  /-- The running callback throws a `std::exception`. -/
  | throw

/-- Whether the event opens a connection. -/
def ClientEvent.isConnect : ClientEvent → Bool
  | .connect => true
  | _ => false

/-- Whether the event is a handler run by the event loop. -/
def IoEvent.isHandler : IoEvent → Bool
  | .runOp _ => true
  | .runWait _ => true
  | _ => false

namespace ClientSession

/-- A session before it is connected. -/
def create (cfg : HttpConfiguration) : ClientSession where
  world :=
    let w := World.fresh StatusLine cfg
    { w with session := { w.session with isOpen := false } }
  keepAlive := false
  callback := none
  stack := []
  nextRequest := 0
  accepted := []
  invoked := []
  replaced := []

/-- Calls a callback. -/
def invoke (s : ClientSession) (id : ℕ) (outcome : Except ErrorCode Response) (guarded : Bool) :
    ClientSession :=
  { s with stack := ⟨guarded⟩ :: s.stack, invoked := s.invoked ++ [⟨id, outcome⟩] }

/-- Takes the callback out of `m_callback` and calls it, if there is one. -/
def complete (s : ClientSession) (outcome : Except ErrorCode Response) (guarded : Bool) :
    ClientSession :=
  let cb := s.callback
  let s := { s with callback := none }
  match cb with
  | some id => s.invoke id outcome guarded
  | none => s

def onMessageParsed (s : ClientSession) (resp : Response) (guarded : Bool) : ClientSession :=
  { s with keepAlive := resp.headers.keepsAlive }.complete (.ok resp) guarded

def onWriteComplete (s : ClientSession) : ClientSession := { s with world := s.world.call .doRead }

def onError (s : ClientSession) (ec : ErrorCode) (guarded : Bool) : ClientSession :=
  { s with world := s.world.call .shutdown }.complete (.error ec) guarded

/-- Runs the hook the base class calls. -/
def onHook (s : ClientSession) : Option (HookCall StatusLine) → ClientSession
  | some ⟨.messageParsed resp, guarded⟩ => s.onMessageParsed resp guarded
  | some ⟨.writeComplete, _⟩ => s.onWriteComplete
  | some ⟨.error ec, guarded⟩ => s.onError ec guarded
  | none => s

/-- The headers `async_request` adds to those of a request. -/
def requestHeaders (ep : Endpoint) (h : Headers) : Headers :=
  let h := if ascii "host" ∉ h ∧ ascii "Host" ∉ h then
      h.assignMove (ascii "Host") (ep.host ++ ascii ":" ++ decimal ep.port.toNat)
    else h
  if ascii "connection" ∉ h ∧ ascii "Connection" ∉ h then
    h.assignMove (ascii "Connection") (ascii "keep-alive")
  else h

def asyncRequest (s : ClientSession) (ep : Endpoint) (req : Request) (hasCallback : Bool) :
    ClientSession :=
  let id := s.nextRequest
  let s := { s with nextRequest := id + 1 }
  if !s.world.session.isOpen then
    if hasCallback then s.invoke id (.error .notConnected) false else s
  else
    let req : Request := { req with headers := requestHeaders ep req.headers }
    { s with
      callback := if hasCallback then some id else none
      world := s.world.call (.doWrite (req.serialize (ep.order s.world.written.length)))
      accepted := if hasCallback then s.accepted ++ [id] else s.accepted
      replaced := s.replaced ++ s.callback.toList }

def step (ep : Endpoint) (s : ClientSession) : ClientEvent → Option ClientSession
  | .io e =>
    if e.isHandler ∧ s.stack ≠ [] then none
    else (s.world.io e).map fun (world, hook) => { s with world }.onHook hook
  | .request c hasCallback => some (s.asyncRequest ep c.request hasCallback)
  | .connect =>
    let session := s.world.session
    some { s with world := { s.world with
      session := { session with isOpen := true, ops := session.ops.map Op.abort }
      incoming := [] } }
  | .ret =>
    match s.stack with
    | [] => none
    | _ :: stack => some { s with stack }
  | .throw =>
    match s.stack with
    | [] => none
    | frame :: stack =>
      let s := { s with stack }
      -- the handler of `on_headers_read` catches it and calls `on_error`
      if frame.guarded then
        some ({ s with world := s.world.record (some ⟨.error .invalidArgument, false⟩) }.onError
          .invalidArgument false)
      else some s

end ClientSession

end Dss.Http
