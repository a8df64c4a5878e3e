import Dss.Http.Session
import Dss.Lib.Run

/-!
# Server sessions

`server_session` reads requests and writes responses: each request goes to the
request handler, its response is written, and then the session reads the next
request or shuts down, as `m_keep_alive` says. The request handler is any
function of the request and the number of requests handled before, so that it
may keep a state; it returns a response or throws a `std::exception`. So is the
order in which the headers of the `n`-th response are iterated.
-/

namespace Dss.Http

open Dss.Lib

/-- The request handler of a session and the order of iteration, by the number
    of the request. -/
structure Service where
  /-- `m_handler`: a response, or the text of the exception thrown. -/
  handler : ℕ → Request → Except Bytes Response
  order : ℕ → IterationOrder Bytes Bytes

structure ServerSession where
  world : World RequestLine
  /-- `m_keep_alive`. -/
  keepAlive : Bool
  /-- The requests passed to the request handler. -/
  handled : List Request

namespace ServerSession

variable (sv : Service)

/-- A session as `start` leaves it on an accepted connection. -/
def start (cfg : HttpConfiguration) : ServerSession where
  world := (World.fresh RequestLine cfg).call .doRead
  keepAlive := false
  handled := []

/-- What `on_message_parsed` makes of a request and the outcome of its handler:
    the response it writes, and `m_keep_alive`. -/
def answer (req : Request) (outcome : Except Bytes Response) : Response × Bool :=
  let (resp, keepAlive) := match outcome with
    | .ok resp => (resp, req.headers.keepsAlive)
    | .error what => (Response.text .internalServerError what, false)
  let headers := resp.headers.assignMove (ascii "Connection")
    (if keepAlive then ascii "keep-alive" else ascii "close")
  ({ resp with headers }, keepAlive)

def onMessageParsed (s : ServerSession) (req : Request) : ServerSession :=
  let k := s.handled.length
  let (resp, keepAlive) := answer req (sv.handler k req)
  { world := s.world.call (.doWrite (resp.serialize (sv.order k)))
    keepAlive
    handled := s.handled ++ [req] }

def onWriteComplete (s : ServerSession) : ServerSession :=
  { s with world := s.world.call (if s.keepAlive then .doRead else .shutdown) }

def onError (s : ServerSession) : ServerSession := { s with world := s.world.call .shutdown }

/-- Runs the hook the base class calls. -/
def onHook (s : ServerSession) : Option (HookCall RequestLine) → ServerSession
  | some ⟨.messageParsed req, _⟩ => s.onMessageParsed sv req
  | some ⟨.writeComplete, _⟩ => s.onWriteComplete
  | some ⟨.error _, _⟩ => s.onError
  | none => s

def step (s : ServerSession) (e : IoEvent) : Option ServerSession :=
  (s.world.io e).map fun (world, hook) => { s with world }.onHook sv hook

end ServerSession

end Dss.Http
