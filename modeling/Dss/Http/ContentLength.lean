import Dss.Http.Codec
import Dss.Http.HeaderMap

/-!
# The length of a body

`headers_t::content_length` reads the last `Content-Length` field of a stream: the
length is that field's number, if it is one in range, and zero if there is no such
field (`AnnouncesLength`); any other value is an error. The numbers that the
serializers write are read back as they are, and what remains of a body is computed
without wrapping around. All of it is `contentLength_exact`.
-/

namespace Dss.Http

open Dss.Lib Dss.Utils Headers

namespace Headers

variable {h : Headers} {s v : Bytes} {n : ℕ}

/-- The stream says that its body has the length `n`. -/
def AnnouncesLength (s : Bytes) (n : ℕ) : Prop :=
  (∀ line ∈ headerLines s, ∀ v, ¬IsField line contentLengthKey v) ∧ n = 0 ∨
  ∃ v, LastField (headerLines s) contentLengthKey v ∧
    v ≠ [] ∧ (∀ b ∈ v, isDigit b = true) ∧ digitsValue v = n ∧ n < 2 ^ 64

theorem contentLength_of_none (hv : h.lookup contentLengthKey = none) :
    h.contentLength = .ok 0 := by
  rw [contentLength, findMove_eq, show normalize (ascii "Content-Length") = contentLengthKey by
    decide, hv]

/-- The value is read as a number in range, or refused. -/
theorem contentLength_of_some (hv : h.lookup contentLengthKey = some v) :
    h.contentLength = match fromChars (2 ^ 64) v with
      | some (n, []) => .ok n
      | _ => .error contentLengthError := by
  rw [contentLength, findMove_eq, show normalize (ascii "Content-Length") = contentLengthKey by
    decide, hv]
  simp only
  split
  next hnil =>
    subst hnil
    rfl
  next => rfl

theorem contentLength_eq_ok : h.contentLength = .ok n ↔
    h.lookup contentLengthKey = none ∧ n = 0 ∨
      ∃ v, h.lookup contentLengthKey = some v ∧ fromChars (2 ^ 64) v = some (n, []) := by
  cases hv : h.lookup contentLengthKey with
  | none =>
    rw [contentLength_of_none hv]
    simp [eq_comm]
  | some v =>
    rw [contentLength_of_some hv]
    split
    next m hm =>
      simp only [Except.ok.injEq, reduceCtorEq, false_and, false_or, Option.some.injEq,
        exists_eq_left', hm, Prod.mk.injEq, and_true]
    next hm => simpa using hm n

/-- Any value that is not read is refused with the same error. -/
theorem contentLength_eq_error (hne : ∀ n, h.contentLength ≠ .ok n) :
    h.contentLength = .error contentLengthError := by
  cases hv : h.lookup contentLengthKey with
  | none => exact absurd (contentLength_of_none hv) (hne 0)
  | some v =>
    rw [contentLength_of_some hv]
    split
    next m hm =>
      have hok := contentLength_eq_ok.2 (.inr ⟨v, hv, hm⟩)
      exact absurd hok (hne m)
    next => rfl

/-- The length read from a stream is the one it announces. -/
theorem contentLength_parse : (parse s).1.contentLength = .ok n ↔ AnnouncesLength s n := by
  have hnone : (parse s).1.lookup contentLengthKey = none ↔
      ∀ line ∈ headerLines s, ∀ v, ¬IsField line contentLengthKey v := by
    rw [Finmap.lookup_eq_none, (parsesTo_parse s).key]
    simp only [not_exists, not_and]
  rw [contentLength_eq_ok, hnone, AnnouncesLength]
  simp only [lookup_parse, fromChars_eq_some_nil]

/-! ## The lengths written -/

/-- A number written is read back. -/
theorem contentLength_of_decimal (hn : n < 2 ^ 64)
    (hv : h.lookup contentLengthKey = some (decimal n)) : h.contentLength = .ok n := by
  refine contentLength_eq_ok.2 (.inr ⟨_, hv, ?_⟩)
  simpa using fromChars_append (r := []) hn (by simp)

theorem contentLength_text {text : Bytes} (code : StatusCode) (hn : text.length < 2 ^ 64) :
    (Response.text code text).headers.contentLength = .ok text.length := by
  refine contentLength_of_decimal hn ?_
  rw [Response.text, assignMove_eq]
  exact Finmap.lookup_insert _

theorem contentLength_json {text : Bytes} (code : StatusCode) (hn : text.length < 2 ^ 64) :
    (Response.json code text).headers.contentLength = .ok text.length := by
  refine contentLength_of_decimal hn ?_
  rw [Response.json, assignMove_eq]
  exact Finmap.lookup_insert _

/-- The length `response::serialize` writes is read back. -/
theorem contentLength_response {r : Response} (hr : r.Encodable) (hn : r.body.length < 2 ^ 64)
    (o : IterationOrder Bytes Bytes) :
    ∃ r', Response.parse (r.serialize o) = .ok r' ∧
      r'.headers.contentLength = .ok r.body.length := by
  refine ⟨_, Response.parse_serialize hr o, contentLength_of_decimal hn ?_⟩
  exact (Response.lookup_readBackHeaders r contentLengthKey).trans rfl

/-- So is the length `request::serialize` writes, and none where there is no body. -/
theorem contentLength_request {q : Request} (hq : q.Encodable)
    (hnone : contentLengthKey ∉ q.headers) (hn : q.body.length < 2 ^ 64)
    (o : IterationOrder Bytes Bytes) :
    ∃ q', Request.parse (q.serialize o) = .ok q' ∧
      q'.headers.contentLength = .ok q.body.length := by
  refine ⟨_, Request.parse_serialize hq o, ?_⟩
  have hlookup : q.withDefaults.lookup contentLengthKey = q.defaultHeader contentLengthKey :=
    (q.lookup_withDefaults _).trans (by rw [Finmap.lookup_eq_none.2 hnone, Option.none_or])
  rw [Request.defaultHeader, if_neg (by decide)] at hlookup
  by_cases hbody : q.body = []
  · rw [if_neg (by simp [hbody])] at hlookup
    rw [contentLength_of_none hlookup, hbody]
    rfl
  · rw [if_pos ⟨rfl, hbody⟩] at hlookup
    exact contentLength_of_decimal hn hlookup

/-! ## What remains of a body -/

theorem contentLength_lt (hn : h.contentLength = .ok n) : n < 2 ^ 64 := by
  rcases contentLength_eq_ok.1 hn with ⟨-, rfl⟩ | ⟨v, -, hv⟩
  · decide
  · exact (fromChars_eq_some_nil.1 hv).2.2.2

/-- What remains is the difference of the lengths, or nothing. -/
theorem remaining_eq (hn : h.contentLength = .ok n) (body : Bytes) :
    h.remaining body = .ok (n - min n body.length) := by
  have hlt := contentLength_lt hn
  rw [remaining, hn]
  simp only [Except.map, Except.ok.injEq]
  split
  next hle =>
    rw [sizeSub]
    omega
  next => omega

/-- The length of a body is read exactly as a stream announces it, or refused; the
    lengths written are read back; and what remains of a body is computed without
    wrapping around. -/
theorem contentLength_exact :
    (∀ s n, (parse s).1.contentLength = .ok n ↔ AnnouncesLength s n) ∧
    (∀ s, (∀ n, ¬AnnouncesLength s n) → (parse s).1.contentLength = .error contentLengthError) ∧
    (∀ code (text : Bytes), text.length < 2 ^ 64 →
      (Response.text code text).headers.contentLength = .ok text.length ∧
      (Response.json code text).headers.contentLength = .ok text.length) ∧
    (∀ (r : Response) o, r.Encodable → r.body.length < 2 ^ 64 →
      ∃ r', Response.parse (r.serialize o) = .ok r' ∧
        r'.headers.contentLength = .ok r.body.length) ∧
    (∀ (q : Request) o, q.Encodable → contentLengthKey ∉ q.headers → q.body.length < 2 ^ 64 →
      ∃ q', Request.parse (q.serialize o) = .ok q' ∧
        q'.headers.contentLength = .ok q.body.length) ∧
    ∀ (h : Headers) n body, h.contentLength = .ok n →
      h.remaining body = .ok (n - min n body.length) :=
  ⟨fun _ _ => contentLength_parse,
    fun _ hnone => contentLength_eq_error fun n hn => hnone n (contentLength_parse.1 hn),
    fun code _ hn => ⟨contentLength_text code hn, contentLength_json code hn⟩,
    fun _ o hr hn => contentLength_response hr hn o,
    fun _ o hq hnone hn => contentLength_request hq hnone hn o,
    fun _ _ body hn => remaining_eq hn body⟩

/-- The length of a text is read, and all of it remains. It is read back from a
    serialized response and a serialized request. -/
theorem contentLength_exact_text :
    (Response.text .ok (ascii "text")).headers.contentLength = .ok 4 ∧
    (Response.text .ok (ascii "text")).headers.remaining [] = .ok 4 ∧
    (∃ r', Response.parse (Response.serialize default ⟨⟨.ok, httpVersion⟩, ∅, ascii "text"⟩) =
      .ok r' ∧ r'.headers.contentLength = .ok 4) ∧
    ∃ q', Request.parse (Request.serialize default
      ⟨⟨.post, ascii "/", httpVersion⟩, ∅, ascii "text"⟩) = .ok q' ∧
        q'.headers.contentLength = .ok 4 := by
  have hlength := (contentLength_exact.2.2.1 .ok (ascii "text") (by decide)).1
  refine ⟨hlength, contentLength_exact.2.2.2.2.2 _ 4 [] hlength, ?_, ?_⟩
  · exact contentLength_exact.2.2.2.1 ⟨⟨.ok, httpVersion⟩, ∅, ascii "text"⟩ default
      ⟨⟨by decide, by decide⟩, stored_empty⟩ (by decide)
  · exact contentLength_exact.2.2.2.2.1 ⟨⟨.post, ascii "/", httpVersion⟩, ∅, ascii "text"⟩ default
      ⟨⟨by decide, by decide⟩, ⟨by decide, by decide⟩, stored_empty⟩ Finmap.notMem_empty (by decide)

end Headers

end Dss.Http
