import Dss.Http.Derived
import Dss.Http.Persistence

/-!
# Answers of a server session

A server session works on one request at a time: it reads a request, passes it to
the request handler, writes the answer, and reads the next request when the write
is done. With any bytes coming in, any order of completions and errors, and any
request handler, what is written is one answer to each request that was delivered,
in order (`answers_in_order`): what the handler returned, with the `Connection`
header as the request asks for it, or, if the handler threw, an error that closes
the connection whatever the request asks for (`expectedResponse`).
-/

namespace Dss.Http

open Dss.Lib Dss.Utils Headers

/-! ## The operation under way -/

/-- What an operation writes, `none` if it reads. -/
def OpKind.payload {L : Type} : OpKind L → Option Bytes
  | .write payload => some payload
  | _ => none

theorem Op.payload_eq_none {L : Type} {o : Op L} : o.kind.payload = none ↔ o.isRead = true := by
  cases hk : o.kind <;> simp [OpKind.payload, Op.isRead, hk]

theorem Op.abort_kind {L : Type} (o : Op L) : o.abort.kind = o.kind := by
  rw [abort]
  split <;> rfl

namespace World

variable {L : Type} {w w' : World L} {e : IoEvent} {hook : Option (HookCall L)}
  {msg : Message L} {g : Bool}

/-- The operations under way do what those of another world do. -/
def Continues (w w' : World L) : Prop :=
  ∀ o' ∈ w'.session.ops, ∃ o ∈ w.session.ops, o'.kind.payload = o.kind.payload

theorem Continues.of_subset (h : w'.session.ops ⊆ w.session.ops) : w.Continues w' :=
  fun o ho => ⟨o, h ho, rfl⟩

theorem Continues.trans {w'' : World L} (h : w.Continues w') (h' : w'.Continues w'') :
    w.Continues w'' := by
  intro o'' ho''
  obtain ⟨o', ho', heq'⟩ := h' o'' ho''
  obtain ⟨o, ho, heq⟩ := h o' ho'
  exact ⟨o, ho, heq'.trans heq⟩

theorem continues_setOp {o : Op L} {kind : OpKind L} {progress : Progress}
    (ho : o ∈ w.session.ops) (hkind : kind.payload = o.kind.payload)
    (hops : w'.session.ops = w.session.ops) : w.Continues (w'.setOp o.id kind progress) := by
  intro o' ho'
  simp only [setOp, Session.setOp, List.mem_map, hops] at ho'
  obtain ⟨p, hp, rfl⟩ := ho'
  split
  · exact ⟨o, ho, hkind⟩
  · exact ⟨p, hp, rfl⟩

theorem continues_shutdown (hops : w'.session.ops = w.session.ops) :
    w.Continues (w'.call .shutdown) := by
  intro o' ho'
  rw [call, Session.shutdown_ops, hops] at ho'
  split at ho'
  · obtain ⟨o, ho, rfl⟩ := List.mem_map.1 ho'
    exact ⟨o, ho, by rw [Op.abort_kind]⟩
  · exact ⟨o', ho', rfl⟩

theorem ops_handling_subset (o : Op L) : (w.handling o).session.ops ⊆ w.session.ops :=
  List.filter_sublist.subset

variable [StartLine L]

/-- Where no hook is called, or `on_error`, nothing is delivered or done, and the
    operations go on. -/
theorem Io.of_quiet (h : Io w e w' hook)
    (hquiet : hook = none ∨ ∃ ec g, hook = some ⟨.error ec, g⟩) :
    w'.written = w.written ∧ w'.delivered = w.delivered ∧ w'.writesDone = w.writesDone ∧
      w.Continues w' := by
  cases h with
  | arrive | expire | waitOver => exact ⟨rfl, rfl, rfl, .of_subset (fun _ => id)⟩
  | recvUntil ho hk | recvExactly ho hk =>
    exact ⟨rfl, rfl, rfl, continues_setOp ho (by simp [OpKind.payload, hk]) rfl⟩
  | fail ho | sent ho => exact ⟨rfl, rfl, rfl, continues_setOp ho rfl rfl⟩
  | aborted ho | failed ho => exact ⟨rfl, rfl, rfl, .of_subset (ops_handling_subset _)⟩
  | headersRead ho hk =>
    refine ⟨rfl, rfl, rfl, fun o' ho' => ?_⟩
    rcases List.mem_append.1 ho' with ho' | ho'
    · exact ⟨o', ops_handling_subset _ ho', rfl⟩
    · -- the read of the rest follows the read of the header
      rw [List.mem_singleton.1 ho']
      exact ⟨_, ho, by rw [hk]; rfl⟩
  | headersParsed | bodyRead | written => simp at hquiet
  | timedOut => exact ⟨rfl, rfl, rfl, continues_shutdown rfl⟩

/-- A message is delivered when a read is over. -/
theorem Io.of_messageParsed (h : Io w e w' (some ⟨.messageParsed msg, g⟩)) :
    w'.written = w.written ∧ w'.delivered.map (·.msg) = w.delivered.map (·.msg) ++ [msg] ∧
      w'.writesDone = w.writesDone ∧ ∃ o ∈ w.session.ops, o.kind.payload = none := by
  cases h with
  | headersParsed ho hk | bodyRead ho hk =>
    exact ⟨rfl, by simp [record, withBuffer, handling], rfl, _, ho, by rw [hk]; rfl⟩

/-- A write is done when a write is over. -/
theorem Io.of_writeComplete (h : Io w e w' (some ⟨.writeComplete, g⟩)) :
    w'.written = w.written ∧ w'.delivered = w.delivered ∧ w'.writesDone = w.writesDone + 1 ∧
      ∃ o ∈ w.session.ops, o.kind.payload ≠ none := by
  cases h with
  | written ho hr =>
    refine ⟨rfl, rfl, rfl, _, ho, fun hnone => ?_⟩
    rw [Op.payload_eq_none, hr] at hnone
    cases hnone

end World

/-! ## The invariant -/

namespace ServerSession

variable {sv : Service} {s t : ServerSession} {e : IoEvent} {es : List IoEvent}

/-- The payloads of the answers to the requests. -/
def answers (sv : Service) (reqs : List Request) : List Bytes :=
  reqs.zipIdx.map fun (req, k) =>
    (expectedResponse req (sv.handler k req)).serialize (sv.order k)

theorem answers_concat (reqs : List Request) (req : Request) :
    answers sv (reqs ++ [req]) = answers sv reqs ++
      [(expectedResponse req (sv.handler reqs.length req)).serialize (sv.order reqs.length)] := by
  simp [answers, List.zipIdx_append]

/-- A session has at most one operation under way, and has written one answer to
    each request delivered, in order, with at most the last one not done: it is
    being written as long as a write is under way. -/
structure AnswersInOrder (sv : Service) (s : ServerSession) : Prop where
  single : s.world.session.ops.length ≤ 1
  handled : s.handled = s.world.delivered.map (·.msg)
  written : s.world.written = answers sv s.handled
  done : s.world.writesDone ≤ s.world.delivered.length
  ordered : s.world.delivered.length ≤ s.world.writesDone + 1
  reading : ∀ o ∈ s.world.session.ops, o.kind.payload = none →
    s.world.delivered.length = s.world.writesDone
  writing : ∀ o ∈ s.world.session.ops, ∀ payload, o.kind.payload = some payload →
    s.world.delivered.length = s.world.writesDone + 1 ∧ s.world.written.getLast? = some payload

theorem answersInOrder_start (cfg : HttpConfiguration) : AnswersInOrder sv (start cfg) where
  single := le_rfl
  handled := rfl
  written := rfl
  done := le_rfl
  ordered := Nat.zero_le _
  reading _ _ _ := rfl
  writing o ho payload hpayload := by
    obtain rfl := List.mem_singleton.1 ho
    cases hpayload

/-- Nothing changes where no operation starts but to go on. -/
theorem AnswersInOrder.of_continues {w : World RequestLine} (h : AnswersInOrder sv s)
    (hsingle : w.session.ops.length ≤ 1) (hwritten : w.written = s.world.written)
    (hdelivered : w.delivered = s.world.delivered) (hdone : w.writesDone = s.world.writesDone)
    (hops : s.world.Continues w) : AnswersInOrder sv { s with world := w } where
  single := hsingle
  handled := h.handled.trans (by rw [hdelivered])
  written := hwritten.trans h.written
  done := by simpa only [hdelivered, hdone] using h.done
  ordered := by simpa only [hdelivered, hdone] using h.ordered
  reading o' ho' hpayload := by
    obtain ⟨o, ho, heq⟩ := hops o' ho'
    simpa only [hdelivered, hdone] using h.reading o ho (heq ▸ hpayload)
  writing o' ho' payload hpayload := by
    obtain ⟨o, ho, heq⟩ := hops o' ho'
    simpa only [hdelivered, hdone, hwritten] using h.writing o ho payload (heq ▸ hpayload)

/-- A request that is delivered is answered. -/
theorem AnswersInOrder.of_delivered {w : World RequestLine} {req : Request}
    (h : AnswersInOrder sv s) (hnil : w.session.ops = []) (hwritten : w.written = s.world.written)
    (hdelivered : w.delivered.map (·.msg) = s.world.delivered.map (·.msg) ++ [req])
    (hdone : w.writesDone = s.world.writesDone)
    (hreading : s.world.delivered.length = s.world.writesDone) :
    AnswersInOrder sv (onMessageParsed sv { s with world := w } req) := by
  have hlen : w.delivered.length = w.writesDone + 1 := by
    rw [hdone, ← hreading]
    simpa using congrArg List.length hdelivered
  have hops : (onMessageParsed sv { s with world := w } req).world.session.ops.map (·.kind) =
      [.write ((expectedResponse req (sv.handler s.handled.length req)).serialize
        (sv.order s.handled.length))] := by
    simp [onMessageParsed, World.call, hnil, answer_fst]
  have hkind : ∀ o ∈ (onMessageParsed sv { s with world := w } req).world.session.ops, o.kind = _ :=
    fun o ho => List.mem_singleton.1 (hops ▸ List.mem_map_of_mem ho)
  constructor
  · simpa using (congrArg List.length hops).le
  · simp [onMessageParsed, World.call, h.handled, hdelivered]
  · simp only [onMessageParsed, World.call, hwritten, h.written, answers_concat, answer_fst]
  · simp [onMessageParsed, World.call, hlen]
  · simp [onMessageParsed, World.call, hlen]
  · intro o ho hpayload
    rw [hkind o ho] at hpayload
    cases hpayload
  · intro o ho payload hpayload
    rw [hkind o ho] at hpayload
    obtain rfl := Option.some.inj hpayload
    simp [onMessageParsed, World.call, hlen, answer_fst]

/-- A write that is done leaves nothing to write. -/
theorem AnswersInOrder.of_done {w : World RequestLine} (h : AnswersInOrder sv s)
    (hsingle : w.session.ops.length ≤ 1) (hwritten : w.written = s.world.written)
    (hdelivered : w.delivered = s.world.delivered) (hdone : w.writesDone = s.world.writesDone + 1)
    (hlen : s.world.delivered.length = s.world.writesDone + 1)
    (hreads : ∀ o ∈ w.session.ops, o.kind.payload = none) :
    AnswersInOrder sv { s with world := w } where
  single := hsingle
  handled := h.handled.trans (by rw [hdelivered])
  written := hwritten.trans h.written
  done := by simp only [hdelivered, hdone, hlen, le_refl]
  ordered := by simp only [hdelivered, hdone, hlen, Nat.le_succ]
  reading _ _ _ := by simp only [hdelivered, hdone, hlen]
  writing o ho payload hpayload := by
    rw [hreads o ho] at hpayload
    cases hpayload

theorem AnswersInOrder.step (h : AnswersInOrder sv s) (hstep : step sv s e = some t) :
    AnswersInOrder sv t := by
  have hsingle := length_ops_step h.single hstep
  obtain ⟨w, hook, hio, hcase⟩ := step_cases hstep
  have hIo := World.io_cases hio
  rcases hcase with ⟨rfl, rfl⟩ | ⟨req, g, rfl, rfl⟩ | ⟨g, rfl, rfl⟩ | ⟨ec, g, rfl, rfl⟩
  · obtain ⟨hwritten, hdelivered, hdone, hops⟩ := hIo.of_quiet (.inl rfl)
    exact h.of_continues hsingle hwritten hdelivered hdone hops
  · -- the answer is written when the read is over
    obtain ⟨hwritten, hdelivered, hdone, o, ho, hread⟩ := hIo.of_messageParsed
    exact h.of_delivered (hIo.ops_eq_nil (by simp) h.single) hwritten hdelivered hdone
      (h.reading o ho hread)
  · -- the next read starts when the write is over, or none
    obtain ⟨hwritten, hdelivered, hdone, o, ho, hwrite⟩ := hIo.of_writeComplete
    obtain ⟨payload, hpayload⟩ := Option.ne_none_iff_exists'.1 hwrite
    have hwriting := (h.writing o ho payload hpayload).1
    have hnil := hIo.ops_eq_nil (by simp) h.single
    simp only [onWriteComplete] at hsingle ⊢
    split at hsingle
    next hkeep =>
      rw [if_pos hkeep]
      refine h.of_done hsingle hwritten hdelivered hdone hwriting fun o' ho' => ?_
      simp only [World.call, Session.doRead_ops, hnil, List.nil_append, List.mem_singleton] at ho'
      rw [ho']
      rfl
    next hclose =>
      rw [if_neg hclose]
      refine h.of_done hsingle hwritten hdelivered hdone hwriting fun o' ho' => ?_
      simp [World.call, hnil] at ho'
  · obtain ⟨hwritten, hdelivered, hdone, hops⟩ := hIo.of_quiet (.inr ⟨ec, g, rfl⟩)
    exact h.of_continues hsingle hwritten hdelivered hdone
      (hops.trans (World.continues_shutdown rfl))

/-- In every state of every run the session has answered in order. -/
theorem answers_in_order (sv : Service) (cfg : HttpConfiguration)
    (h : Run (step sv) always (start cfg) es t) : AnswersInOrder sv t :=
  h.invariant (answersInOrder_start cfg) fun _ _ _ hI _ hstep => hI.step hstep

/-! ## Two runs -/

/-- The length of the field lines, in any order. -/
theorem length_fieldLines (o : IterationOrder Bytes Bytes) (h : Headers) :
    (fieldLines (o.entries h)).length =
      (h.entries.map fun e => (fieldLine e.1 e.2).length).sum := by
  rw [← o.coe_entries h, Multiset.map_coe, Multiset.sum_coe, fieldLines, List.length_flatMap]

/-- Responses that differ in their headers only are told apart by the length of
    their field lines. -/
theorem length_eq_of_serialize_eq {r r' : Response} {o : IterationOrder Bytes Bytes}
    (h : r.serialize o = r'.serialize o) (hs : Settable r.headers) (hs' : Settable r'.headers)
    (hline : r'.line = r.line) (hbody : r'.body = r.body) :
    (r.headers.entries.map fun e => (fieldLine e.1 e.2).length).sum =
      (r'.headers.entries.map fun e => (fieldLine e.1 e.2).length).sum := by
  have hlen := congrArg List.length h
  simp only [Response.serialize,
    Response.any_eq_false (ascii "Content-Length") hs.normalized (by decide),
    Response.any_eq_false (ascii "Connection") hs.normalized (by decide),
    Response.any_eq_false (ascii "Content-Length") hs'.normalized (by decide),
    Response.any_eq_false (ascii "Connection") hs'.normalized (by decide), hline, hbody,
    List.length_append, length_fieldLines] at hlen
  omega

/-- An error that closes the connection is written with other bytes than one that
    keeps it. -/
theorem serialize_error_ne (o : IterationOrder Bytes Bytes) :
    let resp := Response.text .internalServerError []
    (resp.withConnection (ascii "close")).serialize o ≠
      (resp.withConnection (ascii "keep-alive")).serialize o := by
  intro resp h
  have hlen := length_eq_of_serialize_eq h ((settable_text _ _).withConnection isWord_close)
    ((settable_text _ _).withConnection isWord_keepAlive) rfl rfl
  exact absurd hlen (by decide +kernel)

/-- The handler of a request that keeps the connection throws: the response written
    closes the connection, and is not one that keeps it. -/
theorem error_closes :
    let sv : Service := ⟨fun _ _ => .error [], fun _ => default⟩
    ∃ es t, Run (step sv) always (start {}) es t ∧ t.handled = [getRequest ∅] ∧
      (getRequest ∅).connection = ascii "keep-alive" ∧
      t.world.written ≠ [((Response.text .internalServerError []).withConnection
        (getRequest ∅).connection).serialize (sv.order 0)] := by
  intro sv
  obtain ⟨t, ht, hhandled⟩ := Option.map_eq_some_iff.1 (by decide +kernel :
    (exec (step sv) (start {})
      [.arrive (ascii "GET / HTTP/1.1\r\n\r\n"), .recv 0 18, .runOp 0]).map (·.handled) =
        some [getRequest ∅])
  have hrun : Run (step sv) always (start {}) _ t := .of_exec (by decide +kernel) ht
  have hanswers : AnswersInOrder sv t :=
    hrun.invariant (answersInOrder_start {}) fun _ _ _ hI _ hstep => hI.step hstep
  have hkeep : (getRequest ∅).connection = ascii "keep-alive" := by decide +kernel
  refine ⟨_, t, hrun, hhandled, hkeep, fun h => ?_⟩
  rw [hanswers.written, hhandled, hkeep] at h
  exact serialize_error_ne (sv.order 0) (List.singleton_inj.1 h)

/-- A request is answered, and the connection closed. -/
theorem answers_in_order_close :
    let sv : Service := ⟨textHandler, fun _ => default⟩
    ∃ es t, Run (step sv) always (start {}) es t ∧ t.world.writesDone = 1 ∧
      t.world.written = answers sv [closingRequest] := by
  intro sv
  obtain ⟨t, ht, hdone⟩ := Option.map_eq_some_iff.1 (by decide +kernel :
    (exec (step sv) (start {})
      [.arrive (ascii "GET / HTTP/1.1\r\nConnection: close\r\n\r\n"), .recv 0 37, .runOp 0,
        .sent 1, .runOp 1]).map (fun t => (t.world.writesDone, t.handled)) =
        some (1, [closingRequest]))
  have hrun : Run (step sv) always (start {}) _ t := .of_exec (by decide +kernel) ht
  obtain ⟨hdone, hhandled⟩ := Prod.mk.inj hdone
  exact ⟨_, t, hrun, hdone, hhandled ▸ (answers_in_order sv {} hrun).written⟩

end ServerSession

end Dss.Http
