import Dss.Http.Client
import Dss.Http.Codec
import Dss.Http.HeaderMap
import Dss.Http.Server

/-!
# Keeping the connection

Server and client decide from the headers of a request and of its response
whether the connection stays open (`m_keep_alive`). The server tells the client
its decision in the `Connection` header, but `response::serialize` overrides it
with a line `Connection: close` of its own (`exists_parse_serialize`). So the two
agree only where the server closes the connection, unless a key has an empty line
inside: then the headers end there for the client, and the last `Connection` line
before decides (`TellsClose`, `agree_iff`).
-/

namespace Dss.Http

open Dss.Lib Dss.Utils Headers

variable {h : Headers} {k v : Bytes} {o : IterationOrder Bytes Bytes}

/-- Headers as a request handler may set them: keys as `operator[]` normalizes
    them, and values as `parse` reads them. A key with a colon or an LF is read
    back as another one. -/
structure Settable (h : Headers) : Prop where
  normalized : ∀ k v, h.lookup k = some v → normalize k = k
  value : ∀ k v, h.lookup k = some v → IsValue v

/-- No key has an empty line inside. -/
def Unbroken (h : Headers) : Prop :=
  ∀ k v, h.lookup k = some v → ¬[lf, lf] <:+: k ∧ ¬[lf, cr, lf] <:+: k

/-- A response with the headers `h`, iterated in the order `o`, tells its reader
    to close the connection: no key ends the headers before the line
    `Connection: close`, or of the lines before that end the last one for the
    connection says so. -/
def TellsClose (o : IterationOrder Bytes Bytes) (h : Headers) : Prop :=
  Unbroken h ∨ LastField (headerLines (fieldLines (o.entries h))) connectionKey (ascii "close")

/-! ## Reading the header block to its end -/

/-- The lines of a text without an empty line are read, whatever they are read
    as. -/
theorem exists_parseFrom_lines {z : Bytes} (hlf : lf ∉ z) (hz : ∀ l, chompCr (l ++ z) ≠ [])
    (hlflf : ¬[lf, lf] <:+: lf :: k) (hlfcr : ¬[lf, cr, lf] <:+: lf :: k) (h : Headers) :
    ∃ h', ∀ s, parseFrom h (k ++ z ++ lf :: s) = parseFrom h' s := by
  induction hn : k.length using Nat.strongRecOn generalizing h k with
  | ind n ih =>
    by_cases hk : lf ∈ k
    · -- the line up to the first LF is not empty, and the rest is as the whole
      obtain ⟨l, t, rfl, hl⟩ := List.eq_append_cons_of_mem hk
      have hne : chompCr l ≠ [] := by
        rw [ne_eq, chompCr_eq_nil]
        rintro (rfl | rfl)
        · exact hlflf ⟨[], t, rfl⟩
        · exact hlfcr ⟨[], t, rfl⟩
      have hsuffix : lf :: t <:+ lf :: (l ++ lf :: t) := ⟨lf :: l, rfl⟩
      obtain ⟨h', hh'⟩ := ih t.length (by simp [← hn]; omega)
        (fun hin => hlflf (hin.trans hsuffix.isInfix))
        (fun hin => hlfcr (hin.trans hsuffix.isInfix)) (h.parseLine (chompCr l)) rfl
      refine ⟨h', fun s => ?_⟩
      rw [show l ++ lf :: t ++ z ++ lf :: s = l ++ lf :: (t ++ z ++ lf :: s) by simp,
        parseFrom_line hl hne, hh']
    · exact ⟨_, fun s => parseFrom_line (by simp [hk, hlf]) (hz k)⟩

/-- The lines of a field are read, if its key is normalized and without an empty line
    inside. -/
theorem exists_parseFrom_fieldLine (hn : normalize k = k)
    (hunbroken : ¬[lf, lf] <:+: k ∧ ¬[lf, cr, lf] <:+: k) (hv : lf ∉ v) (h₀ : Headers) :
    ∃ h', ∀ s, parseFrom h₀ (fieldLine k v ++ s) = parseFrom h' s := by
  have hline : ∀ s, fieldLine k v ++ s = k ++ (colon :: 32 :: v ++ [cr]) ++ lf :: s := by
    simp [fieldLine_append]
  have hlf : lf ∉ colon :: 32 :: v ++ [cr] := lf_not_mem_fieldLine List.not_mem_nil hv
  -- a normalized key does not start with an LF
  have hhead : ∀ t, k ≠ lf :: t := by
    rintro t rfl
    have := (hn ▸ trimmed_normalize (lf :: t)).head lf rfl
    exact absurd this (by decide)
  have hhead' : ∀ t, k ≠ cr :: t := by
    rintro t rfl
    have := (hn ▸ trimmed_normalize (cr :: t)).head cr rfl
    exact absurd this (by decide)
  obtain ⟨hlflf, hlfcr⟩ := hunbroken
  simp only [hline]
  refine exists_parseFrom_lines hlf (fun l => ?_) (fun hin => ?_) (fun hin => ?_) h₀
  · rw [← List.append_assoc, chompCr_append_cr]
    simp
  · rcases List.infix_cons_iff.1 hin with hpre | hin
    · obtain ⟨t, ht⟩ := (List.cons_prefix_cons.1 hpre).2
      exact hhead t ht.symm
    · exact hlflf hin
  · rcases List.infix_cons_iff.1 hin with hpre | hin
    · obtain ⟨t, ht⟩ := (List.cons_prefix_cons.1 hpre).2
      exact hhead' (lf :: t) ht.symm
    · exact hlfcr hin

/-- The header block up to the lines `response::serialize` adds is read, if every line
    is. -/
theorem exists_parseFrom_fieldLines {l : List (Σ _ : Bytes, Bytes)}
    (hl : ∀ e ∈ l, ∀ h₀, ∃ h', ∀ s, parseFrom h₀ (fieldLine e.1 e.2 ++ s) = parseFrom h' s)
    (h₀ : Headers) : ∃ h', ∀ s, parseFrom h₀ (fieldLines l ++ s) = parseFrom h' s := by
  induction l generalizing h₀ with
  | nil => exact ⟨h₀, fun _ => rfl⟩
  | cons e l ih =>
    obtain ⟨h₁, hh₁⟩ := hl e List.mem_cons_self h₀
    obtain ⟨h', hh'⟩ := ih (fun e he => hl e (List.mem_cons_of_mem _ he)) h₁
    refine ⟨h', fun s => ?_⟩
    rw [fieldLines, List.flatMap_cons, List.append_assoc, hh₁]
    exact hh' s

/-- A serialized response is read back with the length of its body and
    `connection: close`, whatever the other headers are read back as. -/
theorem Response.exists_parse_serialize {r : Response} (hv : IsWord r.line.version)
    (hn : ∀ k v, r.headers.lookup k = some v → normalize k = k)
    (hl : ∀ k v, r.headers.lookup k = some v → ∀ h₀, ∃ h', ∀ s,
      parseFrom h₀ (fieldLine k v ++ s) = parseFrom h' s) (o : IterationOrder Bytes Bytes) :
    ∃ h', Response.parse (r.serialize o) = .ok { r with
      headers := (Finmap.insert contentLengthKey (decimal r.body.length) h').insert connectionKey
        (ascii "close") } := by
  obtain ⟨h', hh'⟩ := exists_parseFrom_fieldLines (l := o.entries r.headers)
    (fun e he => hl _ _ (o.mem_entries.1 he)) ∅
  exact ⟨h', parse_serialize_of_fieldLines hv hn o hh'⟩

/-- A key with an empty line inside ends the headers. -/
theorem parse_fieldLines_of_blank {l : List (Σ _ : Bytes, Bytes)} (hmem : ⟨k, v⟩ ∈ l)
    (hblank : [lf, lf] <:+: k ∨ [lf, cr, lf] <:+: k) (s : Bytes) :
    (Headers.parse (fieldLines l ++ s)).1 = (Headers.parse (fieldLines l)).1 := by
  obtain ⟨b, x, y, hb, hk⟩ : ∃ b x y, (b = [] ∨ b = [cr]) ∧ k = x ++ lf :: (b ++ lf :: y) := by
    rcases hblank with ⟨x, y, rfl⟩ | ⟨x, y, rfl⟩
    · exact ⟨[], x, y, .inl rfl, by simp⟩
    · exact ⟨[cr], x, y, .inr rfl, by simp⟩
  obtain ⟨l₁, l₂, rfl⟩ := List.append_of_mem hmem
  have hlines : lf :: fieldLines (l₁ ++ ⟨k, v⟩ :: l₂) = lf :: (fieldLines l₁ ++ x) ++
      lf :: (b ++ lf :: (y ++ (ascii ": " ++ v ++ crlf) ++ fieldLines l₂)) := by
    simp [fieldLines, fieldLine, hk]
  obtain ⟨h', z, hread⟩ := readsBlock_of_blank ∅ hb hlines
  have hend := hread.parseFrom []
  rw [List.append_nil] at hend
  rw [Headers.parse, Headers.parse, hread.parseFrom s, hend]

/-- The headers of a serialized response are read from its field lines and what
    follows them. -/
theorem Response.exists_parse_fieldLines {r : Response} (hv : IsWord r.line.version)
    (o : IterationOrder Bytes Bytes) :
    ∃ s r', Response.parse (r.serialize o) = .ok r' ∧
      r'.headers = (Headers.parse (fieldLines (o.entries r.headers) ++ s)).1 := by
  have hline := StartLine.parse_append (L := StatusLine) (lf_not_mem_statusLine hv.lf_not_mem)
  rw [ofLine_words hv] at hline
  simp only [List.append_assoc] at hline
  rw [Response.parse, Response.serialize]
  simp only [List.append_assoc]
  rw [Message.parse_of_startLine (hline _)]
  exact ⟨_, _, rfl, rfl⟩

/-- What is read back of a serialized response closes the connection exactly if
    the response tells so. -/
theorem Response.exists_parse_keepsAlive {r : Response} (hv : IsWord r.line.version)
    (hs : Settable r.headers) (o : IterationOrder Bytes Bytes) :
    ∃ r', Response.parse (r.serialize o) = .ok r' ∧
      (r'.headers.keepsAlive = false ↔ TellsClose o r.headers) := by
  have hkeeps (h : Headers) : h.keepsAlive = false ↔
      h.lookup connectionKey = some (ascii "close") := by
    rw [keepsAlive, findMove_eq, show normalize (ascii "connection") = connectionKey by decide]
    simp
  by_cases hunbroken : Unbroken r.headers
  · -- the line the serializer adds is read
    obtain ⟨h', hparse⟩ := Response.exists_parse_serialize hv hs.normalized (fun k v hk =>
      exists_parseFrom_fieldLine (hs.normalized k v hk) (hunbroken k v hk)
        (hs.value k v hk).no_lf) o
    refine ⟨_, hparse, ?_⟩
    rw [hkeeps]
    exact iff_of_true (Finmap.lookup_insert _) (.inl hunbroken)
  · -- it is not, nor is any line behind the key
    obtain ⟨k, v, hk, hblank⟩ : ∃ k v, r.headers.lookup k = some v ∧
        ([lf, lf] <:+: k ∨ [lf, cr, lf] <:+: k) := by
      simpa [Unbroken, or_iff_not_imp_left] using hunbroken
    obtain ⟨s, r', hparse, hheaders⟩ := Response.exists_parse_fieldLines hv o
    refine ⟨r', hparse, ?_⟩
    rw [hkeeps, hheaders, parse_fieldLines_of_blank (o.mem_entries.2 hk) hblank, lookup_parse]
    exact (or_iff_right hunbroken).symm

/-! ## What a request is answered with -/

/-- The response with another `Connection` header. -/
def Response.withConnection (resp : Response) (value : Bytes) : Response :=
  { resp with headers := resp.headers.assignMove (ascii "Connection") value }

/-- What a request asks for: the connection is kept unless it says `close`. -/
def Request.connection (req : Request) : Bytes :=
  if req.headers.findMove (ascii "connection") = some (ascii "close") then ascii "close"
  else ascii "keep-alive"

/-- The response to a request, by the outcome of its handler. -/
def expectedResponse (req : Request) : Except Bytes Response → Response
  | .ok resp => resp.withConnection req.connection
  | .error what => (Response.text .internalServerError what).withConnection (ascii "close")

theorem answer_fst (req : Request) (outcome : Except Bytes Response) :
    (ServerSession.answer req outcome).1 = expectedResponse req outcome := by
  cases outcome with
  | ok resp =>
    simp only [ServerSession.answer, expectedResponse, Response.withConnection, Request.connection,
      Headers.keepsAlive, decide_eq_true_eq, ite_not]
  | error what => rfl

/-! ## The two decisions -/

/-- The client that reads the bytes the server writes for the request `req`
    decides as the server has decided. -/
def Agree (sv : Service) (s : ServerSession) (req : Request) : Prop :=
  ∃ payload resp, (s.onMessageParsed sv req).world.written = s.world.written ++ [payload] ∧
    Response.parse payload = .ok resp ∧ ∀ (c : ClientSession) (g : Bool),
      (c.onMessageParsed resp g).keepAlive = (s.onMessageParsed sv req).keepAlive

theorem ClientSession.keepAlive_complete (c : ClientSession) (outcome : Except ErrorCode Response)
    (g : Bool) : (c.complete outcome g).keepAlive = c.keepAlive := by
  rw [complete]
  cases c.callback <;> rfl

theorem lookup_insert_eq_some {k' v' : Bytes}
    (h' : (Finmap.insert k v h).lookup k' = some v') :
    k' = k ∧ v' = v ∨ h.lookup k' = some v' := by
  by_cases hk : k' = k
  · subst hk
    rw [Finmap.lookup_insert, Option.some.injEq] at h'
    exact .inl ⟨rfl, h'.symm⟩
  · rw [Finmap.lookup_insert_of_ne _ hk] at h'
    exact .inr h'

theorem Settable.insert (hs : Settable h) (hn : normalize k = k) (hv : IsValue v) :
    Settable (Finmap.insert k v h) := by
  refine ⟨fun k' v' hk' => ?_, fun k' v' hk' => ?_⟩ <;>
    rcases lookup_insert_eq_some hk' with ⟨rfl, rfl⟩ | hk'
  · exact hn
  · exact hs.normalized k' v' hk'
  · exact hv
  · exact hs.value k' v' hk'

theorem Unbroken.insert (hs : Unbroken h) (hlf : lf ∉ k) : Unbroken (Finmap.insert k v h) := by
  intro k' v' hk'
  rcases lookup_insert_eq_some hk' with ⟨rfl, rfl⟩ | hk'
  · exact ⟨fun hin => hlf (hin.subset List.mem_cons_self),
      fun hin => hlf (hin.subset List.mem_cons_self)⟩
  · exact hs k' v' hk'

theorem isWord_httpVersion : IsWord httpVersion := ⟨by decide, by decide⟩

theorem settable_empty : Settable ∅ := ⟨fun k v hk => by simp at hk, fun k v hk => by simp at hk⟩

theorem unbroken_empty : Unbroken ∅ := fun k v hk => by simp at hk

/-- What `response::text` sets can be set. -/
theorem settable_text (code : StatusCode) (text : Bytes) :
    Settable (Response.text code text).headers := by
  simp only [Response.text, assignMove_eq]
  have htype := settable_empty.insert (k := normalize (ascii "Content-Type"))
    (by decide) (isValue_of_isWord (v := ascii "text/plain") ⟨by decide, by decide⟩)
  exact htype.insert (by decide) (isValue_of_isWord (isWord_decimal _))

theorem unbroken_text (code : StatusCode) (text : Bytes) :
    Unbroken (Response.text code text).headers := by
  simp only [Response.text, assignMove_eq]
  exact (unbroken_empty.insert (by decide)).insert (by decide)

/-- The `Connection` header the server sets can be set, and breaks no key. -/
theorem Settable.withConnection {resp : Response} {value : Bytes} (hs : Settable resp.headers)
    (hvalue : IsWord value) : Settable (resp.withConnection value).headers := by
  simp only [Response.withConnection, assignMove_eq]
  exact hs.insert (by decide) (isValue_of_isWord hvalue)

theorem Unbroken.withConnection {resp : Response} {value : Bytes} (hs : Unbroken resp.headers) :
    Unbroken (resp.withConnection value).headers := by
  simp only [Response.withConnection, assignMove_eq]
  exact hs.insert (by decide)

theorem isWord_close : IsWord (ascii "close") := ⟨by decide, by decide⟩

theorem isWord_keepAlive : IsWord (ascii "keep-alive") := ⟨by decide, by decide⟩

theorem isWord_connection (req : Request) : IsWord req.connection := by
  rw [Request.connection]
  split
  · exact isWord_close
  · exact isWord_keepAlive

/-- The response written for any outcome that can be serialized is read back as
    one that closes the connection exactly if it tells so. -/
theorem exists_parse_answer {req : Request} {outcome : Except Bytes Response}
    (hresp : ∀ resp, outcome = .ok resp → IsWord resp.line.version ∧ Settable resp.headers)
    (o : IterationOrder Bytes Bytes) :
    ∃ r', Response.parse ((ServerSession.answer req outcome).1.serialize o) = .ok r' ∧
      (r'.headers.keepsAlive = false ↔ TellsClose o (expectedResponse req outcome).headers) := by
  rw [answer_fst]
  cases outcome with
  | ok resp =>
    obtain ⟨hv, hs⟩ := hresp resp rfl
    exact Response.exists_parse_keepsAlive (r := resp.withConnection req.connection) hv
      (hs.withConnection (isWord_connection req)) o
  | error what =>
    exact Response.exists_parse_keepsAlive
      (r := (Response.text .internalServerError what).withConnection (ascii "close"))
      isWord_httpVersion ((settable_text _ _).withConnection isWord_close) o

/-- The client decides by the headers of the response it reads. -/
theorem agree_iff_keepsAlive (sv : Service) (s : ServerSession) {req : Request} {r' : Response}
    (hparse : Response.parse ((ServerSession.answer req
      (sv.handler s.handled.length req)).1.serialize (sv.order s.handled.length)) = .ok r') :
    Agree sv s req ↔
      r'.headers.keepsAlive = (ServerSession.answer req (sv.handler s.handled.length req)).2 := by
  have hclient : ∀ (c : ClientSession) (g : Bool),
      (c.onMessageParsed r' g).keepAlive = r'.headers.keepsAlive := fun c g => by
    rw [ClientSession.onMessageParsed, ClientSession.keepAlive_complete]
  constructor
  · rintro ⟨payload, resp, hwritten, hresp, hkeep⟩
    obtain rfl := List.singleton_inj.1 (List.append_cancel_left hwritten)
    obtain rfl := Except.ok.inj (hparse.symm.trans hresp)
    rw [← hclient (ClientSession.create {}) false, hkeep]
    rfl
  · exact fun h => ⟨_, r', rfl, hparse, fun c g => (hclient c g).trans h⟩

/-- Both ends agree on the persistence of the connection exactly where the handler
    throws, or its response tells the client to close the connection if and only
    if the request asks for that. -/
theorem agree_iff (sv : Service) (s : ServerSession) (req : Request)
    (hresp : ∀ resp, sv.handler s.handled.length req = .ok resp →
      IsWord resp.line.version ∧ Settable resp.headers) :
    Agree sv s req ↔
      (∃ what, sv.handler s.handled.length req = .error what) ∨
        ∃ resp, sv.handler s.handled.length req = .ok resp ∧
          (req.headers.findMove (ascii "connection") = some (ascii "close") ↔
            TellsClose (sv.order s.handled.length)
              (resp.withConnection req.connection).headers) := by
  obtain ⟨r', hr', hclose⟩ := exists_parse_answer hresp (sv.order s.handled.length)
  rw [agree_iff_keepsAlive sv s hr']
  cases houtcome : sv.handler s.handled.length req with
  | error what =>
    rw [houtcome] at hclose
    have htells : TellsClose (sv.order s.handled.length)
        (expectedResponse req (.error what)).headers :=
      .inl (unbroken_text _ _).withConnection
    simp [ServerSession.answer, hclose.2 htells]
  | ok resp =>
    rw [houtcome] at hclose
    have hserver : req.headers.keepsAlive = false ↔
        req.headers.findMove (ascii "connection") = some (ascii "close") := by
      simp [keepsAlive]
    have hiff : r'.headers.keepsAlive = req.headers.keepsAlive ↔
        (req.headers.keepsAlive = false ↔ r'.headers.keepsAlive = false) := by
      cases r'.headers.keepsAlive <;> cases req.headers.keepsAlive <;> simp
    simp only [ServerSession.answer, reduceCtorEq, exists_false, false_or, Except.ok.injEq,
      exists_eq_left']
    rw [hiff, hserver, hclose]
    rfl

/-- A handler that answers every request with a text. -/
def textHandler (_ : ℕ) (_ : Request) : Except Bytes Response :=
  .ok (Response.text .ok (ascii "hi"))

theorem textHandler_settable (k : ℕ) (req : Request) :
    ∀ resp, textHandler k req = .ok resp → IsWord resp.line.version ∧ Settable resp.headers :=
  fun _ h => Except.ok.inj h ▸ ⟨isWord_httpVersion, settable_text _ _⟩

/-- The request `GET /`. -/
def getRequest (headers : Headers) : Request := ⟨⟨.get, ascii "/", httpVersion⟩, headers, []⟩

/-- To a request that leaves the connection open, the server answers that it
    closes it, and waits for the next request. -/
theorem not_agree_keepAlive :
    Request.parse (ascii "GET / HTTP/1.1\r\n\r\n") = .ok (getRequest ∅) ∧
    (∀ resp, textHandler 0 (getRequest ∅) = .ok resp →
      IsWord resp.line.version ∧ Settable resp.headers) ∧
    ¬Agree ⟨textHandler, fun _ => default⟩ (ServerSession.start {}) (getRequest ∅) := by
  refine ⟨by decide +kernel, textHandler_settable 0 _, ?_⟩
  obtain ⟨r', hr', hclose⟩ := @exists_parse_answer (getRequest ∅) _
    (textHandler_settable 0 (getRequest ∅)) default
  have htells : TellsClose default
      (expectedResponse (getRequest ∅) (textHandler 0 (getRequest ∅))).headers :=
    .inl (unbroken_text _ _).withConnection
  rw [agree_iff_keepsAlive ⟨textHandler, fun _ => default⟩ (ServerSession.start {}) hr',
    hclose.2 htells]
  decide

/-- The request `GET /` of a client that closes the connection. -/
def closingRequest : Request := getRequest (Finmap.insert connectionKey (ascii "close") ∅)

theorem agree_iff_close :
    Agree ⟨textHandler, fun _ => default⟩ (ServerSession.start {}) closingRequest :=
  (agree_iff ⟨textHandler, fun _ => default⟩ (ServerSession.start {}) closingRequest
    (textHandler_settable 0 closingRequest)).2 (.inr ⟨_, rfl, fun _ =>
      .inl (unbroken_text _ _).withConnection, fun _ => by decide⟩)

end Dss.Http
