import Dss.Http.Framing

/-!
# Sessions

`http::session` on its socket, timer and buffer. The class is a template over
the message it reads (`Message L` here) and over the derived class, which it
calls at three hooks (`Hook`); what the hooks do is left to the derived classes
(`ServerSession`, `ClientSession`).

A session never waits: it starts asynchronous operations and handles their
completions. What is assumed of asio:

* an operation is *pending* until it completes, with success or an error; its
  completion handler is then queued, and runs later, in any order with the
  others (`Op`, `IoEvent.runOp`);
* `async_read_until` completes when the delimiter is in the buffer, possibly
  with bytes after it, or with `not_found` when the buffer is full without it
  (`readUntilProgress`); `async_read` with `transfer_exactly(n)` appends exactly
  `n` bytes; every socket read takes at least one byte;
* closing the socket completes what is pending with `operation_aborted`, and
  revokes nothing that is queued; an operation on a closed socket completes with
  `bad_descriptor`;
* a wait on the timer is queued with success when the timer expires; `cancel`
  and `expires_after` turn the waits still pending into aborted ones, and leave
  those already queued (`Wait`).

`World` is a session with the bytes its peer has sent, and a record of what has
happened. `World.io` is one step of the outside world or of the event loop,
`World.call` what a derived class may do.
-/

namespace Dss.Http

open Dss.Lib

/-- The error codes the sessions tell apart. -/
inductive ErrorCode
  | operationAborted
  | notFound
  | badDescriptor
  | timedOut
  | messageSize
  | invalidArgument
  | notConnected
  | other (value : ℕ)
  deriving DecidableEq, Repr

/-- `http_configuration`, whose limits together are within `std::size_t`, so
    that their sum does not wrap around: the program builds it with the default
    limits only. -/
structure HttpConfiguration where
  maxHeaderSize : ℕ := 16 * 1024
  maxBodySize : ℕ := 1024 * 1024
  fits : maxHeaderSize + maxBodySize < 2 ^ 64 := by decide

/-- The capacity `m_buffer` is constructed with. -/
def HttpConfiguration.capacity (cfg : HttpConfiguration) : ℕ :=
  (cfg.maxHeaderSize + cfg.maxBodySize) % 2 ^ 64

theorem HttpConfiguration.capacity_eq (cfg : HttpConfiguration) :
    cfg.capacity = cfg.maxHeaderSize + cfg.maxBodySize :=
  Nat.mod_eq_of_lt cfg.fits

/-! ## Operations and waits -/

/-- The operations of a session, with what their completion handlers capture. -/
inductive OpKind (L : Type)
  /-- `async_read_until(m_socket, m_buffer, "\r\n\r\n")`, handled by
      `on_headers_read`. -/
  | readUntil
  /-- `async_read` with `transfer_exactly`, of which `remaining` bytes are still
      to come, handled by `on_body_read`. -/
  | readExactly (remaining : ℕ) (msg : Message L)
  /-- `async_write`. -/
  | write (payload : Bytes)
  deriving DecidableEq

inductive Progress
  | pending
  /-- Completed, with the handler queued. -/
  | done (ec : Option ErrorCode)
  deriving DecidableEq, Repr

structure Op (L : Type) where
  id : ℕ
  kind : OpKind L
  progress : Progress
  deriving DecidableEq

/-- Whether the operation reads from the socket into `m_buffer`. -/
def Op.isRead {L : Type} (o : Op L) : Bool :=
  match o.kind with
  | .write _ => false
  | _ => true

/-- What closing the socket does to an operation. -/
def Op.abort {L : Type} (o : Op L) : Op L :=
  match o.progress with
  | .pending => { o with progress := .done (some .operationAborted) }
  | .done _ => o

@[simp] theorem Op.abort_id {L : Type} (o : Op L) : o.abort.id = o.id := by
  rw [abort]
  split <;> rfl

@[simp] theorem Op.abort_isRead {L : Type} (o : Op L) : o.abort.isRead = o.isRead := by
  rw [abort]
  split <;> rfl

inductive WaitState
  | pending
  | fired
  | cancelled
  deriving DecidableEq, Repr

/-- A wait on the timer, started for the operation `guarded`. -/
structure Wait where
  guarded : ℕ
  state : WaitState
  deriving DecidableEq, Repr

def Wait.cancel (v : Wait) : Wait :=
  match v.state with
  | .pending => { v with state := .cancelled }
  | _ => v

def Wait.expire (v : Wait) : Wait :=
  match v.state with
  | .pending => { v with state := .fired }
  | _ => v

@[simp] theorem Wait.cancel_guarded (v : Wait) : v.cancel.guarded = v.guarded := by
  rw [cancel]
  split <;> rfl

@[simp] theorem Wait.expire_guarded (v : Wait) : v.expire.guarded = v.guarded := by
  rw [expire]
  split <;> rfl

theorem Wait.cancel_ne_pending (v : Wait) : v.cancel.state ≠ .pending := by
  cases h : v.state <;> simp [cancel, h]

theorem Wait.expire_ne_pending (v : Wait) : v.expire.state ≠ .pending := by
  cases h : v.state <;> simp [expire, h]

theorem Wait.expire_fired (v : Wait) (h : v.expire.state = .fired) :
    v.state = .fired ∨ v.state = .pending := by
  cases hs : v.state <;> simp_all [expire]

@[simp] theorem Wait.cancel_fired (v : Wait) : v.cancel.state = .fired ↔ v.state = .fired := by
  cases h : v.state <;> simp [cancel, h]

/-! ## The session -/

/-- A session: `m_cfg`, whether `m_socket` is open, `m_buffer`, the operations
    started and not handled yet, and the waits of `m_timer`. -/
structure Session (L : Type) where
  cfg : HttpConfiguration
  isOpen : Bool
  buffer : Bytes
  ops : List (Op L)
  waits : List Wait
  /-- The number of the next operation. -/
  nextId : ℕ

/-- The hooks of the derived class. -/
inductive Hook (L : Type)
  | messageParsed (msg : Message L)
  | writeComplete
  | error (ec : ErrorCode)
  deriving DecidableEq

/-- A hook called, within the `try` block of `on_headers_read` or not. -/
structure HookCall (L : Type) where
  hook : Hook L
  guarded : Bool
  deriving DecidableEq

namespace Session

variable {L : Type}

def cancelTimer (s : Session L) : Session L := { s with waits := s.waits.map Wait.cancel }

/-- `expires_after` cancels what is pending, and `async_wait` adds a wait. The
    operation it guards is the one started next. -/
def startTimer (s : Session L) : Session L :=
  { s with waits := s.waits.map Wait.cancel ++ [⟨s.nextId, .pending⟩] }

def shutdown (s : Session L) : Session L :=
  let s := s.cancelTimer
  if !s.isOpen then s else { s with isOpen := false, ops := s.ops.map Op.abort }

/-- How far `async_read_until` is with a buffer. -/
def readUntilProgress (cfg : HttpConfiguration) (buffer : Bytes) : Progress :=
  if search delimiter buffer ≠ none then .done none
  else if buffer.length = cfg.capacity then .done (some .notFound)
  else .pending

/-- The progress an operation starts with: on a closed socket it completes at
    once. -/
def startProgress (s : Session L) (progress : Progress) : Progress :=
  if s.isOpen then progress else .done (some .badDescriptor)

def startOp (s : Session L) (kind : OpKind L) (progress : Progress) : Session L :=
  { s with
    ops := s.ops ++ [⟨s.nextId, kind, s.startProgress progress⟩]
    nextId := s.nextId + 1 }

def doRead (s : Session L) : Session L :=
  s.startTimer.startOp .readUntil (readUntilProgress s.cfg s.buffer)

def doWrite (s : Session L) (payload : Bytes) : Session L :=
  s.startTimer.startOp (.write payload) .pending

def doRemainingRead (s : Session L) (remaining : ℕ) (msg : Message L) : Session L :=
  s.startTimer.startOp (.readExactly remaining msg) .pending

/-- `on_headers_read`. If the message cannot be parsed, the parser has taken its
    first line off the buffer. -/
def onHeadersRead [StartLine L] (s : Session L) (ec : Option ErrorCode) :
    Session L × Option (HookCall L) :=
  let s := s.cancelTimer
  match ec with
  | some .operationAborted => (s, none)
  | some .notFound => (s, some ⟨.error .messageSize, false⟩)
  | some ec => (s, some ⟨.error ec, false⟩)
  | none =>
    match search delimiter s.buffer with
    | none => (s, some ⟨.error .invalidArgument, false⟩)
    | some delim =>
      let headerSize := delim + 4
      if headerSize > s.cfg.maxHeaderSize then (s, some ⟨.error .messageSize, false⟩)
      else match Message.parse (L := L) s.buffer with
        | .error _ =>
          ({ s with buffer := ((getline s.buffer).map Prod.snd).getD [] },
            some ⟨.error .invalidArgument, false⟩)
        | .ok msg =>
          let s := { s with buffer := [] }
          match msg.headers.contentLength with
          | .error _ => (s, some ⟨.error .invalidArgument, false⟩)
          | .ok expected =>
            if expected > s.cfg.maxBodySize then (s, some ⟨.error .messageSize, true⟩)
            else if msg.body.length > expected then (s, some ⟨.error .invalidArgument, true⟩)
            else
              let remaining := expected - msg.body.length
              if remaining > 0 then (s.doRemainingRead remaining msg, none)
              else (s, some ⟨.messageParsed msg, true⟩)

def onBodyRead (s : Session L) (ec : Option ErrorCode) (msg : Message L) :
    Session L × Option (HookCall L) :=
  let s := s.cancelTimer
  match ec with
  | some ec => (s, some ⟨.error ec, false⟩)
  | none => ({ s with buffer := [] }, some ⟨.messageParsed (msg.append s.buffer), false⟩)

/-- The completion handler of `do_write`. -/
def onWritten (s : Session L) (ec : Option ErrorCode) : Session L × Option (HookCall L) :=
  let s := s.cancelTimer
  match ec with
  | some ec => (s, some ⟨.error ec, false⟩)
  | none => (s, some ⟨.writeComplete, false⟩)

/-- The completion handler of the operation `o`. -/
def handle [StartLine L] (s : Session L) (o : Op L) (ec : Option ErrorCode) :
    Session L × Option (HookCall L) :=
  let s := { s with ops := s.ops.filter (·.id ≠ o.id) }
  match o.kind with
  | .readUntil => s.onHeadersRead ec
  | .readExactly _ msg => s.onBodyRead ec msg
  | .write _ => s.onWritten ec

/-- The completion handler of a wait on the timer. -/
def onTimer (s : Session L) (v : Wait) : Session L × Option (HookCall L) :=
  let s := { s with waits := s.waits.filter (·.guarded ≠ v.guarded) }
  match v.state with
  | .fired => (s.shutdown, some ⟨.error .timedOut, false⟩)
  | _ => (s, none)

/-- The operation `id` with another kind and progress. -/
def setOp (s : Session L) (id : ℕ) (kind : OpKind L) (progress : Progress) : Session L :=
  { s with ops := s.ops.map fun o => if o.id = id then ⟨id, kind, progress⟩ else o }

/-! ### What the calls change -/

variable (s : Session L)

@[simp] theorem shutdown_isOpen : s.shutdown.isOpen = false := by
  cases h : s.isOpen <;> simp [shutdown, cancelTimer, h]

@[simp] theorem shutdown_cfg : s.shutdown.cfg = s.cfg := by
  cases h : s.isOpen <;> simp [shutdown, cancelTimer, h]

@[simp] theorem shutdown_buffer : s.shutdown.buffer = s.buffer := by
  cases h : s.isOpen <;> simp [shutdown, cancelTimer, h]

@[simp] theorem shutdown_nextId : s.shutdown.nextId = s.nextId := by
  cases h : s.isOpen <;> simp [shutdown, cancelTimer, h]

@[simp] theorem shutdown_waits : s.shutdown.waits = s.waits.map Wait.cancel := by
  cases h : s.isOpen <;> simp [shutdown, cancelTimer, h]

@[simp] theorem shutdown_ops :
    s.shutdown.ops = if s.isOpen then s.ops.map Op.abort else s.ops := by
  cases h : s.isOpen <;> simp [shutdown, cancelTimer, h]

variable {s} in
theorem startProgress_of_open (h : s.isOpen) (progress : Progress) :
    s.startProgress progress = progress := if_pos h

variable {s} in
theorem startProgress_of_closed (h : s.isOpen = false) (progress : Progress) :
    s.startProgress progress = .done (some .badDescriptor) := by
  rw [startProgress, h]
  rfl

@[simp] theorem doRead_ops : s.doRead.ops =
    s.ops ++ [⟨s.nextId, .readUntil, s.startProgress (readUntilProgress s.cfg s.buffer)⟩] := rfl

@[simp] theorem doWrite_ops (payload : Bytes) : (s.doWrite payload).ops =
    s.ops ++ [⟨s.nextId, .write payload, s.startProgress .pending⟩] := rfl

@[simp] theorem doRemainingRead_ops (remaining : ℕ) (msg : Message L) :
    (s.doRemainingRead remaining msg).ops =
      s.ops ++ [⟨s.nextId, .readExactly remaining msg, s.startProgress .pending⟩] := rfl

end Session

/-! ## The world of a session -/

/-- A message passed to `on_message_parsed`, with everything taken off the
    socket until then, and `m_buffer` at that moment. -/
structure Delivery (L : Type) where
  msg : Message L
  taken : Bytes
  buffer : Bytes
  deriving DecidableEq

/-- A session and its peer; the other fields record the past. -/
structure World (L : Type) where
  session : Session L
  /-- What the peer has sent and the session has not read. -/
  incoming : Bytes
  /-- What the session has read. -/
  taken : Bytes
  /-- The messages passed to `on_message_parsed`. -/
  delivered : List (Delivery L)
  /-- The error codes passed to `on_error`. -/
  errors : List ErrorCode
  /-- The payloads passed to `do_write`. -/
  written : List Bytes
  /-- How often `on_write_complete` has been called. -/
  writesDone : ℕ
  /-- The operations whose completion handler has run. -/
  completed : List ℕ
  /-- The operations on whose behalf the timer has closed the session. -/
  timeouts : List ℕ

/-- What happens outside of the session, and the handlers the event loop runs. -/
inductive IoEvent
  /-- The peer sends bytes. -/
  | arrive (bytes : Bytes)
  /-- A socket read of the operation `id` takes `n` bytes. -/
  | recv (id n : ℕ)
  /-- The operation `id` fails. -/
  | fail (id : ℕ) (ec : ErrorCode)
  /-- The write `id` is done. -/
  | sent (id : ℕ)
  /-- The timer expires. -/
  | expire
  /-- The completion handler of the operation `id` runs. -/
  | runOp (id : ℕ)
  /-- The completion handler of the wait for the operation `guarded` runs. -/
  | runWait (guarded : ℕ)
  deriving DecidableEq, Repr

/-- What a derived class does to its session. -/
inductive Call
  | doRead
  | doWrite (payload : Bytes)
  | shutdown
  deriving DecidableEq, Repr

namespace World

variable {L : Type}

/-- A session on a fresh connection. -/
def fresh (L : Type) (cfg : HttpConfiguration) : World L where
  session := { cfg, isOpen := true, buffer := [], ops := [], waits := [], nextId := 0 }
  incoming := []
  taken := []
  delivered := []
  errors := []
  written := []
  writesDone := 0
  completed := []
  timeouts := []

/-- All bytes the peer has sent. -/
def stream (w : World L) : Bytes := w.taken ++ w.incoming

def call (w : World L) : Call → World L
  | .doRead => { w with session := w.session.doRead }
  | .doWrite payload =>
    { w with session := w.session.doWrite payload, written := w.written ++ [payload] }
  | .shutdown => { w with session := w.session.shutdown }

/-- Records a hook called. -/
def record (w : World L) : Option (HookCall L) → World L
  | some ⟨.messageParsed msg, _⟩ =>
    { w with delivered := w.delivered ++ [⟨msg, w.taken, w.session.buffer⟩] }
  | some ⟨.writeComplete, _⟩ => { w with writesDone := w.writesDone + 1 }
  | some ⟨.error ec, _⟩ => { w with errors := w.errors ++ [ec] }
  | none => w

@[simp] theorem record_session (w : World L) (hook : Option (HookCall L)) :
    (w.record hook).session = w.session := by
  unfold record
  split <;> rfl

@[simp] theorem record_taken (w : World L) (hook : Option (HookCall L)) :
    (w.record hook).taken = w.taken := by
  unfold record
  split <;> rfl

@[simp] theorem record_incoming (w : World L) (hook : Option (HookCall L)) :
    (w.record hook).incoming = w.incoming := by
  unfold record
  split <;> rfl

/-- The next `n` bytes, read into the buffer. -/
def take (w : World L) (n : ℕ) : World L :=
  { w with
    session := { w.session with buffer := w.session.buffer ++ w.incoming.take n }
    incoming := w.incoming.drop n
    taken := w.taken ++ w.incoming.take n }

def setOp (w : World L) (id : ℕ) (kind : OpKind L) (progress : Progress) : World L :=
  { w with session := w.session.setOp id kind progress }

/-- A socket read of `n` bytes, for an operation that reads. -/
def recv (w : World L) (o : Op L) (n : ℕ) : Option (World L) :=
  if w.session.isOpen ∧ o.progress = .pending ∧ 0 < n ∧ n ≤ w.incoming.length then
    match o.kind with
    | .readUntil =>
      if w.session.buffer.length + n ≤ w.session.cfg.capacity then
        let w := w.take n
        some (w.setOp o.id .readUntil (Session.readUntilProgress w.session.cfg w.session.buffer))
      else none
    | .readExactly remaining msg =>
      if n ≤ remaining then
        some ((w.take n).setOp o.id (.readExactly (remaining - n) msg)
          (if n = remaining then .done none else .pending))
      else none
    | .write _ => none
  else none

def op? (w : World L) (id : ℕ) : Option (Op L) := w.session.ops.find? (·.id = id)

/-- One event: the world after it, and the hook called in it. -/
def io [StartLine L] (w : World L) : IoEvent → Option (World L × Option (HookCall L))
  | .arrive bytes => some ({ w with incoming := w.incoming ++ bytes }, none)
  | .recv id n => (w.op? id).bind fun o => (w.recv o n).map (·, none)
  | .fail id ec => (w.op? id).bind fun o =>
    if w.session.isOpen ∧ o.progress = .pending ∧ ec ≠ .operationAborted ∧ ec ≠ .notFound then
      some (w.setOp id o.kind (.done (some ec)), none)
    else none
  | .sent id => (w.op? id).bind fun o =>
    if w.session.isOpen ∧ o.progress = .pending ∧ o.isRead = false then
      some (w.setOp id o.kind (.done none), none)
    else none
  | .expire =>
    if ∃ v ∈ w.session.waits, v.state = .pending then
      some ({ w with session := { w.session with waits := w.session.waits.map Wait.expire } },
        none)
    else none
  | .runOp id => (w.op? id).bind fun o =>
    match o.progress with
    | .pending => none
    | .done ec =>
      let (session, hook) := w.session.handle o ec
      some ({ w with session, completed := w.completed ++ [id] }.record hook, hook)
  | .runWait guarded => (w.session.waits.find? (·.guarded = guarded)).bind fun v =>
    if v.state = .pending then none
    else
      let (session, hook) := w.session.onTimer v
      let timeouts := if v.state = .fired then w.timeouts ++ [guarded] else w.timeouts
      some ({ w with session, timeouts }.record hook, hook)

end World

end Dss.Http
