import Dss.Http.Answers
import Dss.Http.Serialized
import Mathlib.Algebra.Order.BigOperators.Group.List

/-!
# What client and server send

The requests that the calls of a client send, and the responses a server sends to
them: what they are on the wire (`wireCalls`, `wireAnswers`), and what they are
read as at the other end (`ClientCall.received`, `Service.replied`). A call can be
sent if its path and headers are such as the parser of requests returns them
(`ClientCall.Sendable`); the headers `async_request` adds keep it so.
-/

namespace Dss.Http

open Dss.Lib Dss.Utils Headers WireMessage

/-- The request a call sends. -/
def ClientCall.sent (ep : Endpoint) (c : ClientCall) : Request :=
  { c.request with headers := ClientSession.requestHeaders ep c.request.headers }

/-- The request a call is received as. -/
def ClientCall.received (ep : Endpoint) (c : ClientCall) : Request :=
  { c.sent ep with headers := (c.sent ep).withDefaults }

/-- The response the client gets to the `k`-th request of a connection. -/
def Service.replied (sv : Service) (k : ℕ) (req : Request) : Response :=
  let resp := expectedResponse req (sv.handler k req)
  { resp with headers := resp.readBackHeaders }

/-- A call that can be sent: its path is a word, its headers are as `operator[]`
    stores them, and do not set the length of the body. -/
structure ClientCall.Sendable (c : ClientCall) : Prop where
  path : IsWord c.request.line.path
  headers : Stored c.request.headers
  length : contentLengthKey ∉ c.request.headers

/-- The name of the host is without blanks. -/
def Endpoint.Named (ep : Endpoint) : Prop := ∀ b ∈ ep.host, isSpace b = false

/-- What the request handler returns can be serialized. -/
def Service.Sendable (sv : Service) : Prop :=
  ∀ k req resp, sv.handler k req = .ok resp → resp.Encodable

/-- What `parse` may store, to be computed. -/
theorem stored_iff {h : Headers} : Stored h ↔ ∀ k ∈ h.keys, ∀ v ∈ h.lookup k,
    (normalize k = k ∧ colon ∉ k ∧ lf ∉ k) ∧
      ((∀ b ∈ v.head?, isSpace b = false) ∧ (∀ b ∈ v.getLast?, isSpace b = false)) ∧ lf ∉ v := by
  constructor
  · intro hs k _ v hv
    obtain ⟨hk, hv⟩ := hs k v hv
    exact ⟨⟨hk.normalized, hk.no_colon, hk.no_lf⟩, ⟨hv.trimmed.head, hv.trimmed.last⟩, hv.no_lf⟩
  · intro hs k v hv
    obtain ⟨⟨hn, hc, hl⟩, ⟨hhead, hlast⟩, hlf⟩ :=
      hs k (Finmap.mem_keys.2 (Finmap.mem_of_lookup_eq_some hv)) v hv
    exact ⟨⟨hn, hc, hl⟩, ⟨hhead, hlast⟩, hlf⟩

instance (h : Headers) : Decidable (Stored h) :=
  haveI (o : Option Byte) : Decidable (∀ b ∈ o, isSpace b = false) := o.decidableForallMem
  decidable_of_iff _ stored_iff.symm

instance (c : ClientCall) : Decidable c.Sendable :=
  decidable_of_iff ((c.request.line.path ≠ [] ∧ ∀ b ∈ c.request.line.path, isSpace b = false) ∧
      Stored c.request.headers ∧ contentLengthKey ∉ c.request.headers)
    ⟨fun ⟨⟨hne, hspace⟩, hs, hl⟩ => ⟨⟨hne, hspace⟩, hs, hl⟩,
      fun hc => ⟨⟨hc.path.ne_nil, hc.path.no_space⟩, hc.headers, hc.length⟩⟩

variable {sv : Service} {ep : Endpoint} {c : ClientCall} {h : Headers} {req : Request} {k : ℕ}

theorem stored_assignMove {key value : Bytes} (hs : Stored h) (hkey : IsKey (normalize key))
    (hvalue : IsValue value) : Stored (h.assignMove key value) := by
  rw [assignMove_eq]
  exact hs.insert hkey hvalue

theorem isValue_hostPort (hep : ep.Named) :
    IsValue (ep.host ++ ascii ":" ++ decimal ep.port.toNat) := by
  have hspace : ∀ b ∈ ep.host ++ ascii ":" ++ decimal ep.port.toNat, isSpace b = false := by
    simp only [List.mem_append]
    rintro b ((hb | hb) | hb)
    · exact hep b hb
    · obtain rfl := List.mem_singleton.1 (show b ∈ [colon] from hb)
      rfl
    · exact (isWord_decimal _).no_space b hb
  exact ⟨.of_no_space hspace, fun hlf => absurd (hspace _ hlf) (by decide)⟩

theorem stored_requestHeaders (hep : ep.Named) (hs : Stored h) :
    Stored (ClientSession.requestHeaders ep h) := by
  have hhost : IsKey (normalize (ascii "Host")) := ⟨by decide, by decide, by decide⟩
  have hconn : IsKey (normalize (ascii "Connection")) := ⟨by decide, by decide, by decide⟩
  have hvalue : IsValue (ascii "keep-alive") := isValue_of_isWord ⟨by decide, by decide⟩
  rw [ClientSession.requestHeaders]
  split <;> split
  · exact stored_assignMove (stored_assignMove hs hhost (isValue_hostPort hep)) hconn hvalue
  · exact stored_assignMove hs hhost (isValue_hostPort hep)
  · exact stored_assignMove hs hconn hvalue
  · exact hs

theorem contentLengthKey_not_mem_assignMove {key value : Bytes} (hs : contentLengthKey ∉ h)
    (hkey : contentLengthKey ≠ normalize key) : contentLengthKey ∉ h.assignMove key value := by
  rw [assignMove_eq, Finmap.mem_insert]
  rintro (heq | hmem)
  exacts [hkey heq, hs hmem]

theorem contentLengthKey_not_mem_requestHeaders (hs : contentLengthKey ∉ h) :
    contentLengthKey ∉ ClientSession.requestHeaders ep h := by
  have hhost : contentLengthKey ≠ normalize (ascii "Host") := by decide
  have hconn : contentLengthKey ≠ normalize (ascii "Connection") := by decide
  rw [ClientSession.requestHeaders]
  split <;> split
  · exact contentLengthKey_not_mem_assignMove (contentLengthKey_not_mem_assignMove hs hhost) hconn
  · exact contentLengthKey_not_mem_assignMove hs hhost
  · exact contentLengthKey_not_mem_assignMove hs hconn
  · exact hs

theorem ClientCall.Sendable.encodable (hc : c.Sendable) (hep : ep.Named) :
    (c.sent ep).Encodable where
  path := hc.path
  version := by cases c <;> exact isWord_httpVersion
  headers := stored_requestHeaders hep hc.headers

theorem ClientCall.Sendable.announcesBody (hc : c.Sendable) : (c.sent ep).AnnouncesBody :=
  Request.announcesBody_of_not_mem (contentLengthKey_not_mem_requestHeaders hc.length)

theorem Response.Encodable.withConnection {resp : Response} (hr : resp.Encodable) {value : Bytes}
    (hvalue : IsWord value) : (resp.withConnection value).Encodable where
  version := hr.version
  headers := stored_assignMove hr.headers ⟨by decide, by decide, by decide⟩
    (isValue_of_isWord hvalue)

theorem stored_content {value : Bytes} (hvalue : IsWord value) (n : ℕ) :
    Stored ((Headers.assignMove ∅ (ascii "Content-Type") value).assignMove (ascii "Content-Length")
      (decimal n)) :=
  stored_assignMove (stored_assignMove stored_empty ⟨by decide, by decide, by decide⟩
    (isValue_of_isWord hvalue)) ⟨by decide, by decide, by decide⟩
    (isValue_of_isWord (isWord_decimal _))

theorem encodable_text (code : StatusCode) (text : Bytes) :
    (Response.text code text).Encodable where
  version := isWord_httpVersion
  headers := stored_content ⟨by decide, by decide⟩ _

theorem encodable_json (code : StatusCode) (text : Bytes) :
    (Response.json code text).Encodable where
  version := isWord_httpVersion
  headers := stored_content ⟨by decide, by decide⟩ _

theorem Service.Sendable.encodable (hsv : sv.Sendable) (k : ℕ) (req : Request) :
    (expectedResponse req (sv.handler k req)).Encodable := by
  have hconnection : IsWord req.connection := by
    rw [Request.connection]
    split <;> exact ⟨by decide, by decide⟩
  cases hans : sv.handler k req with
  | ok resp => exact (hsv k req resp hans).withConnection hconnection
  | error what => exact (encodable_text _ what).withConnection isWord_close

/-- The calls as they are on the wire. -/
def wireCalls (ep : Endpoint) (cs : List ClientCall) : List WireMessage :=
  cs.zipIdx.map fun (c, k) => (c.sent ep).wire (ep.order k)

/-- The answers to the requests as they are on the wire. -/
def wireAnswers (sv : Service) (reqs : List Request) : List WireMessage :=
  reqs.zipIdx.map fun (req, k) => (expectedResponse req (sv.handler k req)).wire (sv.order k)

/-- The payloads of the calls. -/
def payloads (ep : Endpoint) (cs : List ClientCall) : List Bytes :=
  cs.zipIdx.map fun (c, k) => (c.sent ep).serialize (ep.order k)

theorem payloads_concat (cs : List ClientCall) (c : ClientCall) :
    payloads ep (cs ++ [c]) =
      payloads ep cs ++ [(c.sent ep).serialize (ep.order cs.length)] := by
  simp [payloads, List.zipIdx_append]

/-! ## The messages on the connection -/

theorem getElem?_of_isPrefix {α : Type} {l l' : List α} {i : ℕ} {a : α} (h : l <+: l')
    (hi : l[i]? = some a) : l'[i]? = some a := by
  obtain ⟨t, rfl⟩ := h
  rwa [List.getElem?_append_left (List.getElem?_eq_some_iff.1 hi).1]

/-- Messages that are read as `ms` are served as these, as long as they are
    accepted. -/
theorem WireMessage.served_isPrefix {L : Type} [StartLine L] {cfg : HttpConfiguration}
    {ps : List WireMessage} {ms : List (Message L)}
    (h : List.Forall₂ (fun p m => Message.parse p.bytes = .ok m) ps ms) :
    served cfg ps <+: ms := by
  induction h with
  | nil => exact List.nil_prefix
  | @cons p m ps ms hp _ ih =>
    rw [served]
    cases hacc : p.accept (L := L) cfg with
    | none => exact List.nil_prefix
    | some m' =>
      obtain rfl := Except.ok.inj ((accept_eq_some.1 hacc).1.symm.trans hp)
      exact List.cons_prefix_cons.2 ⟨rfl, ih⟩

section

variable {cs : List ClientCall} {reqs : List Request}

theorem stream_wireCalls (hep : ep.Named) (hcs : ∀ c ∈ cs, c.Sendable) :
    stream (wireCalls ep cs) = (payloads ep cs).flatten := by
  rw [stream, wireCalls, payloads, List.flatMap, List.map_map]
  refine congrArg List.flatten (List.map_congr_left ?_)
  rintro ⟨c, k⟩ hc
  exact (Request.headerBlock_wire
    ((hcs c (List.fst_mem_of_mem_zipIdx hc)).encodable hep) (ep.order k)).2

theorem wellFormed_wireCalls (hep : ep.Named) (hcs : ∀ c ∈ cs, c.Sendable) :
    ∀ p ∈ wireCalls ep cs, p.WellFormed RequestLine := by
  intro p hp
  obtain ⟨⟨c, k⟩, hc, rfl⟩ := List.mem_map.1 hp
  have hsend := hcs c (List.fst_mem_of_mem_zipIdx hc)
  exact Request.wellFormed_wire (hsend.encodable hep) hsend.announcesBody (ep.order k)

/-- The calls are read as the requests they are received as. -/
theorem parse_wireCalls (hep : ep.Named) (hcs : ∀ c ∈ cs, c.Sendable) :
    List.Forall₂ (fun p m => Message.parse p.bytes = .ok m) (wireCalls ep cs)
      (cs.map (ClientCall.received ep)) := by
  have hfst : cs.map (ClientCall.received ep) =
      cs.zipIdx.map fun ck => ck.1.received ep := by
    conv_lhs => rw [← List.zipIdx_map_fst 0 cs, List.map_map]
    rfl
  rw [hfst, wireCalls, List.forall₂_map_left_iff, List.forall₂_map_right_iff, List.forall₂_same]
  rintro ⟨c, k⟩ hc
  have hsend := (hcs c (List.fst_mem_of_mem_zipIdx hc)).encodable hep
  simp only [(Request.headerBlock_wire hsend (ep.order k)).2]
  exact Request.parse_serialize hsend (ep.order k)

theorem stream_wireAnswers (hsv : sv.Sendable) :
    stream (wireAnswers sv reqs) = (ServerSession.answers sv reqs).flatten := by
  rw [stream, wireAnswers, ServerSession.answers, List.flatMap, List.map_map]
  refine congrArg List.flatten (List.map_congr_left ?_)
  rintro ⟨req, k⟩ -
  exact (Response.headerBlock_wire (hsv.encodable k req) (sv.order k)).2

theorem wellFormed_wireAnswers (hsv : sv.Sendable) :
    ∀ p ∈ wireAnswers sv reqs, p.WellFormed StatusLine := by
  intro p hp
  obtain ⟨⟨req, k⟩, -, rfl⟩ := List.mem_map.1 hp
  exact Response.wellFormed_wire (hsv.encodable k req) (sv.order k)

/-- The answers are read as the client gets them. -/
theorem parse_wireAnswers (hsv : sv.Sendable) :
    List.Forall₂ (fun p m => Message.parse p.bytes = .ok m) (wireAnswers sv reqs)
      (reqs.zipIdx.map fun (req, k) => sv.replied k req) := by
  rw [wireAnswers, List.forall₂_map_left_iff, List.forall₂_map_right_iff, List.forall₂_same]
  rintro ⟨req, k⟩ -
  have hr := hsv.encodable k req
  simp only [(Response.headerBlock_wire hr (sv.order k)).2]
  exact Response.parse_serialize hr (sv.order k)

/-- The first calls are on the wire what they are among all of them. -/
theorem wireCalls_take (ep : Endpoint) {cs cs' : List ClientCall} (h : cs <+: cs') :
    wireCalls ep cs = (wireCalls ep cs').take cs.length := by
  obtain ⟨t, rfl⟩ := h
  simp [wireCalls, List.zipIdx_append]

theorem wireAnswers_take (sv : Service) {reqs reqs' : List Request} (h : reqs <+: reqs') :
    wireAnswers sv reqs = (wireAnswers sv reqs').take reqs.length := by
  obtain ⟨t, rfl⟩ := h
  simp [wireAnswers, List.zipIdx_append]

@[simp] theorem length_wireCalls (ep : Endpoint) (cs : List ClientCall) :
    (wireCalls ep cs).length = cs.length := by
  simp [wireCalls]

@[simp] theorem length_wireAnswers (sv : Service) (reqs : List Request) :
    (wireAnswers sv reqs).length = reqs.length := by
  simp [wireAnswers]

/-! ### Limits -/

/-- The message is within the limits of a session. -/
def WireMessage.Within (cfg : HttpConfiguration) (p : WireMessage) : Prop :=
  p.header.length ≤ cfg.maxHeaderSize ∧ p.body.length ≤ cfg.maxBodySize

instance (cfg : HttpConfiguration) (p : WireMessage) : Decidable (p.Within cfg) :=
  inferInstanceAs (Decidable (_ ∧ _))

/-- The length of the field lines of the headers, which is the same in every order. -/
def Headers.fieldsLength (h : Headers) : ℕ :=
  (h.entries.map fun e => (fieldLine e.1 e.2).length).sum

theorem Headers.fieldsLength_insert_le (h : Headers) (key value : Bytes) :
    fieldsLength (h.insert key value) ≤ (fieldLine key value).length + h.fieldsLength := by
  induction h using Finmap.induction_on with
  | H s =>
    have hsub := (List.kerase_sublist key s.entries).map fun e => (fieldLine e.1 e.2).length
    simpa [fieldsLength] using hsub.sum_le_sum (by simp)

/-- The lines added behind the headers, and the blank line. -/
theorem length_added_le (c c' : Prop) [Decidable c] [Decidable c'] (n : ℕ) :
    (if c then fieldLine (ascii "Connection") (ascii "close") else []).length +
      (if c' then fieldLine (ascii "Content-Length") (decimal n) else []).length +
      crlf.length ≤ (decimal n).length + 39 := by
  have hconn : (fieldLine (ascii "Connection") (ascii "close")).length = 19 := by decide
  have hlen : (fieldLine (ascii "Content-Length") (decimal n)).length =
      (decimal n).length + 18 := by
    simp [fieldLine, show (ascii "Content-Length").length = 14 by decide,
      show (ascii ": ").length = 2 by decide, show crlf.length = 2 by decide]
    omega
  have hcrlf : crlf.length = 2 := rfl
  split <;> split <;> simp only [hconn, hlen, List.length_nil] <;> omega

/-- The header of a request, in any order of its headers. -/
theorem Request.length_header_le (q : Request) (o : IterationOrder Bytes Bytes) :
    (q.wire o).header.length ≤ (methodToString q.line.methodType).length + q.line.path.length +
      q.line.version.length + q.headers.fieldsLength + (decimal q.body.length).length + 43 := by
  have hadded := length_added_le
    (!(o.entries q.headers).any fun e => toLower e.1 = ascii "connection")
    (!((o.entries q.headers).any fun e => toLower e.1 = ascii "content-length") && q.body != [])
    q.body.length
  have hfields := ServerSession.length_fieldLines o q.headers
  simp only [wire, WireMessage.ofPayload, List.length_take, serialize, List.length_append, hfields,
    Headers.fieldsLength, show (ascii " ").length = 1 by decide, show crlf.length = 2 by decide]
    at hadded ⊢
  omega

/-- The header of a response, in any order of its headers. -/
theorem Response.length_header_le (r : Response) (o : IterationOrder Bytes Bytes) :
    (r.wire o).header.length ≤ r.line.version.length +
      (decimal r.line.statusCode.toUnderlying.toNat).length +
      (statusTextFor r.line.statusCode).length + r.headers.fieldsLength +
      (decimal r.body.length).length + 43 := by
  have hadded := length_added_le
    (!(o.entries r.headers).any fun e => e.1 = ascii "Connection")
    (!(o.entries r.headers).any fun e => e.1 = ascii "Content-Length") r.body.length
  have hfields := ServerSession.length_fieldLines o r.headers
  simp only [wire, WireMessage.ofPayload, List.length_take, serialize, List.length_append, hfields,
    Headers.fieldsLength, show (ascii " ").length = 1 by decide, show crlf.length = 2 by decide]
    at hadded ⊢
  omega

variable {cfg : HttpConfiguration}

theorem HttpConfiguration.maxBodySize_lt (cfg : HttpConfiguration) : cfg.maxBodySize < 2 ^ 64 :=
  (Nat.le_add_left _ _).trans_lt cfg.fits

/-- Calls within the limits are accepted. -/
theorem accept_wireCalls (hep : ep.Named) (hcs : ∀ c ∈ cs, c.Sendable)
    (hwithin : ∀ p ∈ wireCalls ep cs, p.Within cfg) :
    ∀ p ∈ wireCalls ep cs, p.accept (L := RequestLine) cfg ≠ none := by
  intro p hp
  obtain ⟨hheader, hbody⟩ := hwithin p hp
  obtain ⟨⟨c, k⟩, hc, rfl⟩ := List.mem_map.1 hp
  have hsend := hcs c (List.fst_mem_of_mem_zipIdx hc)
  obtain ⟨_, hparse, hlength⟩ := contentLength_request (hsend.encodable hep)
    (contentLengthKey_not_mem_requestHeaders hsend.length)
    (hbody.trans_lt cfg.maxBodySize_lt) (ep.order k)
  rw [← (Request.headerBlock_wire (hsend.encodable hep) (ep.order k)).2] at hparse
  exact Option.ne_none_iff_exists'.2 ⟨_, accept_eq_some.2 ⟨hparse, hheader, _, hlength, hbody⟩⟩

/-- Answers within the limits are accepted. -/
theorem accept_wireAnswers (hsv : sv.Sendable)
    (hwithin : ∀ p ∈ wireAnswers sv reqs, p.Within cfg) :
    ∀ p ∈ wireAnswers sv reqs, p.accept (L := StatusLine) cfg ≠ none := by
  intro p hp
  obtain ⟨hheader, hbody⟩ := hwithin p hp
  obtain ⟨⟨req, k⟩, -, rfl⟩ := List.mem_map.1 hp
  have hr := hsv.encodable k req
  obtain ⟨_, hparse, hlength⟩ := contentLength_response hr (hbody.trans_lt cfg.maxBodySize_lt)
    (sv.order k)
  rw [← (Response.headerBlock_wire hr (sv.order k)).2] at hparse
  exact Option.ne_none_iff_exists'.2 ⟨_, accept_eq_some.2 ⟨hparse, hheader, _, hlength, hbody⟩⟩

end

end Dss.Http
