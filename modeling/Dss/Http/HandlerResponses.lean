import Dss.Http.FieldNames
import Dss.Http.Persistence

/-!
# What a handler returns

The responses a request handler can build (`Response.Built`): one of the
constructors, and then any status code, body and headers. What the session writes
for it is read back with its status code and body, and the length of the body, if it
has a version (`reachesClient_iff`). A response that is default-constructed has none,
and there is no function to set it: what is written for it begins with a blank, and
the status code is read as the version.
-/

namespace Dss.Http

open Dss.Lib Dss.Utils Headers

/-- The responses built by the constructors, assignments to the fields, and
    `operator[]` with keys and values without an LF. -/
inductive Response.Built : Response → Prop
  | new : Built .new
  | simple (code : StatusCode) : Built (.simple code)
  | text (code : StatusCode) (text : Bytes) : Built (.text code text)
  | json (code : StatusCode) (jsonBody : Bytes) : Built (.json code jsonBody)
  | statusCode {r : Response} (hr : Built r) (code : StatusCode) :
      Built { r with line := { r.line with statusCode := code } }
  | body {r : Response} (hr : Built r) (body : Bytes) : Built { r with body }
  | assign {r : Response} (hr : Built r) {key value : Bytes} (hkey : lf ∉ key)
      (hvalue : lf ∉ value) : Built { r with headers := r.headers.assign key value }
  | assignMove {r : Response} (hr : Built r) {key value : Bytes} (hkey : lf ∉ key)
      (hvalue : lf ∉ value) : Built { r with headers := r.headers.assignMove key value }

/-- The client that reads the bytes the server writes for the request `req` finds the
    status code and the body of `r`, and its length in the headers. -/
def ReachesClient (sv : Service) (s : ServerSession) (req : Request) (r : Response) : Prop :=
  ∃ payload resp, (s.onMessageParsed sv req).world.written = s.world.written ++ [payload] ∧
    Response.parse payload = .ok resp ∧ resp.line.statusCode = r.line.statusCode ∧
      resp.body = r.body ∧ resp.headers.contentLength = .ok r.body.length

variable {r : Response} {o : IterationOrder Bytes Bytes}

namespace Response.Built

/-- The version is that of the constructor. -/
theorem version (hr : Built r) : r.line.version = [] ∨ r.line.version = httpVersion := by
  induction hr with
  | new => exact .inl rfl
  | simple | text | json => exact .inr rfl
  | statusCode _ _ ih | body _ _ ih | assign _ _ _ ih | assignMove _ _ _ ih => exact ih

theorem lined (hr : Built r) : Lined r.headers := by
  have hcontent : ∀ {type : Bytes} (n : ℕ), lf ∉ type →
      Lined ((Headers.assignMove ∅ (ascii "Content-Type") type).assignMove
        (ascii "Content-Length") (decimal n)) := fun n htype =>
    (lined_empty.assignMove (by decide) htype).assignMove (by decide)
      (isWord_decimal n).lf_not_mem
  induction hr with
  | new | simple => exact lined_empty
  | text _ text => exact hcontent text.length (by decide)
  | json _ jsonBody => exact hcontent jsonBody.length (by decide)
  | statusCode _ _ ih | body _ _ ih => exact ih
  | assign _ hkey hvalue ih =>
    rw [Headers.assign, ← assignMove_eq]
    exact ih.assignMove hkey hvalue
  | assignMove _ hkey hvalue ih => exact ih.assignMove hkey hvalue

end Response.Built

/-- The text of the status does not begin with a number. -/
theorem extractUnsigned_statusTextFor (code : StatusCode) :
    extractUnsigned (2 ^ 16) (ascii " " ++ statusTextFor code) = none := by
  rw [statusTextFor]
  split <;> rfl

/-- Without a version, the status code is read as one, and none is left. -/
theorem ofLine_serialize_of_nil {l : StatusLine} (hl : l.version = []) :
    StartLine.ofLine (L := StatusLine) l.serialize = .error startLineError := by
  have hline : l.serialize =
      ascii " " ++ (decimal l.statusCode.toUnderlying.toNat ++
        (ascii " " ++ statusTextFor l.statusCode)) := by
    simp [StatusLine.serialize, hl]
  have hword := extractWord_append (x := ascii " ") (by decide)
    (isWord_decimal l.statusCode.toUnderlying.toNat) (head_blank (statusTextFor l.statusCode))
  simp only [StartLine.ofLine, hline, hword, extractUnsigned_statusTextFor]

/-- A response without a version cannot be read back. -/
theorem Response.parse_serialize_of_nil (hr : Lined r.headers) (hv : r.line.version = []) :
    Response.parse (r.serialize o) = .error startLineError := by
  obtain ⟨block, hblock, -⟩ := r.exists_fieldNames o hr
  have hlf : lf ∉ r.line.serialize := lf_not_mem_statusLine (hv ▸ List.not_mem_nil)
  have hline := StartLine.parse_append (L := StatusLine) hlf (block ++ (crlf ++ r.body))
  rw [ofLine_serialize_of_nil hv] at hline
  rw [hblock, Response.parse, Message.parse]
  simp only [List.append_assoc] at hline ⊢
  rw [hline]
  rfl

/-- A response with a version is read back with its status code and body, and the
    length of the body. -/
theorem Response.exists_parse_of_lined (hv : IsWord r.line.version) (hr : Lined r.headers)
    (hsize : r.body.length < 2 ^ 64) (o : IterationOrder Bytes Bytes) :
    ∃ resp, Response.parse (r.serialize o) = .ok resp ∧ resp.line = r.line ∧
      resp.body = r.body ∧ resp.headers.contentLength = .ok r.body.length := by
  have hline : ∀ k v, r.headers.lookup k = some v → ∀ h₀, ∃ h', ∀ s,
      parseFrom h₀ (fieldLine k v ++ s) = parseFrom h' s := fun k v hk =>
    have hlf := (hr.no_lf k v hk).1
    exists_parseFrom_fieldLine (hr.normalized k v hk)
      ⟨fun hin => hlf (hin.subset List.mem_cons_self),
        fun hin => hlf (hin.subset List.mem_cons_self)⟩ (hr.no_lf k v hk).2
  obtain ⟨h', hparse⟩ := Response.exists_parse_serialize hv hr.normalized hline o
  refine ⟨_, hparse, rfl, rfl, ?_⟩
  have hne : contentLengthKey ≠ connectionKey := by decide
  have hread := fromChars_append (r := []) hsize (by simp)
  rw [List.append_nil] at hread
  rw [contentLength, findMove_eq,
    show normalize (ascii "Content-Length") = contentLengthKey by decide,
    Finmap.lookup_insert_of_ne _ hne, Finmap.lookup_insert]
  simp only [decimal_ne_nil, if_false, hread]

/-- The server assigns the connection of the response. -/
theorem lined_answer (hr : r.Built) (req : Request) :
    Lined (ServerSession.answer req (.ok r)).1.headers := by
  have hvalue : ∀ b : Bool, lf ∉ if b then ascii "keep-alive" else ascii "close" := by decide
  exact hr.lined.assignMove (by decide) (hvalue _)

/-- The bytes written are those of the answer. -/
theorem reachesClient_iff_answer {sv : Service} {s : ServerSession} {req : Request}
    (hans : sv.handler s.handled.length req = .ok r) :
    ReachesClient sv s req r ↔ ∃ resp,
      Response.parse ((ServerSession.answer req (.ok r)).1.serialize (sv.order s.handled.length)) =
        .ok resp ∧ resp.line.statusCode = r.line.statusCode ∧ resp.body = r.body ∧
        resp.headers.contentLength = .ok r.body.length := by
  have hwritten : (s.onMessageParsed sv req).world.written = s.world.written ++
      [(ServerSession.answer req (.ok r)).1.serialize (sv.order s.handled.length)] := by
    rw [← hans]
    rfl
  rw [ReachesClient, hwritten]
  constructor
  · rintro ⟨payload, resp, heq, h⟩
    obtain rfl := List.singleton_inj.1 (List.append_cancel_left heq)
    exact ⟨resp, h⟩
  · rintro ⟨resp, h⟩
    exact ⟨_, resp, rfl, h⟩

/-- What a handler returns reaches the client exactly if it has a version, that is,
    unless it was default-constructed. The size of a `std::string` is a `std::size_t`. -/
theorem reachesClient_iff (sv : Service) (s : ServerSession) (req : Request) (hr : r.Built)
    (hsize : r.body.length < 2 ^ 64) (hans : sv.handler s.handled.length req = .ok r) :
    ReachesClient sv s req r ↔ r.line.version ≠ [] := by
  rw [reachesClient_iff_answer hans]
  constructor
  · rintro ⟨resp, hparse, -⟩ hv
    rw [Response.parse_serialize_of_nil (lined_answer hr req) hv] at hparse
    cases hparse
  · intro hv
    have hword : IsWord r.line.version := by
      rw [hr.version.resolve_left hv]
      exact isWord_httpVersion
    obtain ⟨resp, hparse, hline, hbody, hlen⟩ := Response.exists_parse_of_lined
      (r := (ServerSession.answer req (.ok r)).1) hword (lined_answer hr req) hsize
      (sv.order s.handled.length)
    exact ⟨resp, hparse, congrArg StatusLine.statusCode hline, hbody, hlen⟩

/-- A response to a client that is told to keep the connection, with a length of its
    own. -/
def customLength : Response :=
  { Response.simple .ok with
    headers := Headers.assign ∅ (ascii "Content-Length") (ascii "7"), body := ascii "hi" }

theorem reachesClient_iff_customLength :
    ReachesClient ⟨fun _ _ => .ok customLength, fun _ => default⟩ (ServerSession.start {})
      (getRequest ∅) customLength ↔ customLength.line.version ≠ [] :=
  reachesClient_iff ⟨fun _ _ => .ok customLength, fun _ => default⟩ (ServerSession.start {})
    (getRequest ∅) (((Response.Built.simple .ok).assign (by decide) (by decide)).body (ascii "hi"))
    (by decide) rfl

/-- A default-constructed response does not reach the client. -/
theorem not_reachesClient_new :
    Response.new.Built ∧ ¬ReachesClient ⟨fun _ _ => .ok .new, fun _ => default⟩
      (ServerSession.start {}) (getRequest ∅) .new := by
  refine ⟨.new, fun h => ?_⟩
  obtain ⟨resp, hparse, -⟩ := (reachesClient_iff_answer rfl).1 h
  rw [Response.parse_serialize_of_nil (lined_answer .new _) rfl] at hparse
  cases hparse

end Dss.Http
