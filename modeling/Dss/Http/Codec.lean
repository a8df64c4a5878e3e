import Dss.Http.Message

/-!
# Serializing and parsing back

What the parsers make of a serialized message. A field line is read back as the
entry it was written for (`Headers.parseFrom_fieldLine`), so a header block in
any order is read back as the map it was written from.

* `Request.parse_serialize`: a request comes back with the headers it had, and
  the defaults for those it had not.
* `Response.parse_serialize`: a response comes back with the defaults *instead*
  of the length and the connection it had. `response::serialize` compares the
  stored keys, which are in lower case, with `"Content-Length"` and
  `"Connection"`, so it always writes its own lines, and the parser lets the
  last line of a key win.

Messages that come from the parser can be serialized: `Request.encodable_of_parse`
and `Response.encodable_of_parse`.
-/

namespace Dss.Http

open Dss.Lib Dss.Utils

variable {h : Headers} {k v s : Bytes}

def connectionKey : Bytes := ascii "connection"
def contentLengthKey : Bytes := ascii "content-length"

/-! ## Header blocks -/

namespace Headers

/-- The first LF of a field line is that of the CR LF at its end. -/
theorem fieldLine_append (k v s : Bytes) :
    fieldLine k v ++ s = (k ++ colon :: (32 :: v) ++ [cr]) ++ lf :: s := by
  simp [fieldLine, crlf, show ascii ": " = [colon, 32] from rfl]

theorem lf_not_mem_fieldLine (hk : lf ∉ k) (hv : lf ∉ v) :
    lf ∉ k ++ colon :: (32 :: v) ++ [cr] := by
  simp only [List.mem_append, List.mem_cons, List.not_mem_nil, or_false]
  rintro ((h | h | h | h) | h)
  exacts [hk h, absurd h (by decide), absurd h (by decide), hv h, absurd h (by decide)]

/-- A field line is read back as the entry it was written for, under the
    normalized key. -/
theorem parseFrom_fieldLine (hk : colon ∉ k) (hk' : lf ∉ k) (hv : IsValue v) (s : Bytes) :
    parseFrom h (fieldLine k v ++ s) = parseFrom (h.insert (normalize k) v) s := by
  have hlf := lf_not_mem_fieldLine hk' hv.no_lf
  have htrim : trim (32 :: v) = v := by
    simpa using trim_append (a := [32]) (b := []) (by decide) (fun _ h => nomatch h) hv.trimmed
  rw [fieldLine_append, parseFrom_line hlf (by rw [chompCr_append_cr]; simp), chompCr_append_cr,
    parseLine_append hk, htrim]

/-- A header block in any order of its entries is read back entry by entry. -/
theorem parseFrom_fieldLines {l : List (Σ _ : Bytes, Bytes)}
    (hl : ∀ e ∈ l, IsKey e.1 ∧ IsValue e.2) (s : Bytes) :
    parseFrom h (fieldLines l ++ s) = parseFrom (insertAll h l) s := by
  induction l generalizing h with
  | nil => rfl
  | cons e l ih =>
    obtain ⟨hk, hv⟩ := hl e List.mem_cons_self
    rw [fieldLines, List.flatMap_cons, List.append_assoc,
      parseFrom_fieldLine hk.no_colon hk.no_lf hv, hk.normalized]
    exact ih fun e he => hl e (List.mem_cons_of_mem _ he)

/-- A stored map, written in any order, is read back as it was. -/
theorem parse_fieldLines (hs : Stored h) (o : IterationOrder Bytes Bytes) (s : Bytes) :
    parse (fieldLines (o.entries h) ++ s) = parseFrom h s := by
  rw [parse, parseFrom_fieldLines fun e he => hs _ _ (o.mem_entries.1 he), insertAll_entries]

/-- The blank line ends the block. -/
theorem parseFrom_crlf (s : Bytes) : parseFrom h (crlf ++ s) = (h, s) :=
  parseFrom_blank (l := [cr]) (by decide) rfl

theorem isValue_of_isWord (hv : IsWord v) : IsValue v :=
  ⟨.of_no_space hv.no_space, hv.lf_not_mem⟩

theorem isWord_close : IsWord (ascii "close") := ⟨by decide, by decide⟩

/-- The default line of the connection, if it is written. -/
theorem parseFrom_connection (c : Prop) [Decidable c] (s : Bytes) :
    parseFrom h ((if c then fieldLine (ascii "Connection") (ascii "close") else []) ++ s) =
      parseFrom (if c then h.insert connectionKey (ascii "close") else h) s := by
  split
  · exact parseFrom_fieldLine (by decide) (by decide) (isValue_of_isWord isWord_close) s
  · rfl

/-- The default line of the length of the body, if it is written. -/
theorem parseFrom_contentLength (c : Prop) [Decidable c] (n : ℕ) (s : Bytes) :
    parseFrom h ((if c then fieldLine (ascii "Content-Length") (decimal n) else []) ++ s) =
      parseFrom (if c then h.insert contentLengthKey (decimal n) else h) s := by
  split
  · exact parseFrom_fieldLine (by decide) (by decide) (isValue_of_isWord (isWord_decimal n)) s
  · rfl

/-- Lower case neither makes nor unmakes a colon or an LF. -/
theorem lower_eq_iff (c : Byte) : (lower c = colon ↔ c = colon) ∧ (lower c = lf ↔ c = lf) :=
  (by decide +kernel : ∀ v : BitVec 8, (lower ⟨v⟩ = colon ↔ (⟨v⟩ : Byte) = colon) ∧
    (lower ⟨v⟩ = lf ↔ (⟨v⟩ : Byte) = lf)) c.toBitVec

/-- The text before the first colon of a line is stored as a key. -/
theorem isKey_normalize (hc : colon ∉ k) (hl : lf ∉ k) : IsKey (normalize k) where
  normalized := normalize_normalize k
  no_colon hm := by
    obtain ⟨c, hc', he⟩ := List.mem_map.1 hm
    exact hc ((lower_eq_iff c).1.1 he ▸ mem_of_mem_trim hc')
  no_lf hm := by
    obtain ⟨c, hc', he⟩ := List.mem_map.1 hm
    exact hl ((lower_eq_iff c).2.1 he ▸ mem_of_mem_trim hc')

theorem isValue_trim (hv : lf ∉ v) : IsValue (trim v) :=
  ⟨trimmed_trim v, fun h => hv (mem_of_mem_trim h)⟩

theorem Stored.parseLine (hs : Stored h) (hl : lf ∉ s) : Stored (h.parseLine s) := by
  rw [Headers.parseLine]
  split
  next => exact hs
  next i hi =>
    rw [assignMove_eq, trimInPlace_eq_trim]
    refine hs.insert (isKey_normalize (fun hm => ?_) fun hm => hl (List.mem_of_mem_take hm))
      (isValue_trim fun hm => hl (List.mem_of_mem_drop hm))
    -- the colon found is the first one
    obtain ⟨j, hj, hc⟩ := List.getElem_of_mem hm
    rw [List.length_take] at hj
    rw [List.getElem_take] at hc
    have hlt : j < i := by omega
    have := List.findIdx?_eq_some_iff_getElem.1 hi
    exact this.2.2 j hlt (by simp [hc])

theorem lf_not_mem_chompCr (hs : lf ∉ s) : lf ∉ chompCr s := by
  rw [chompCr]
  split
  · exact fun hm => hs (List.mem_of_mem_dropLast hm)
  · exact hs

/-- What the loop stores is stored as it should be. -/
theorem Stored.parseFrom (hs : Stored h) (s : Bytes) : Stored (Headers.parseFrom h s).1 := by
  induction hn : s.length using Nat.strongRecOn generalizing h s with
  | ind n ih =>
    rw [parseFrom_eq]
    cases hline : getline s with
    | none => exact hs
    | some p =>
      obtain ⟨line, rest⟩ := p
      simp only
      split
      · exact hs
      · exact ih rest.length (hn ▸ length_of_getline hline)
          (hs.parseLine (lf_not_mem_chompCr (getline_eq_some hline).1)) rest rfl

/-- What the parser returns is stored as it should be. -/
theorem stored_of_parse {t : Bytes} (hp : parse s = (h, t)) : Stored h := by
  have := stored_empty.parseFrom s
  rwa [← parse, hp] at this

end Headers

open Headers

/-- The first line is read from the bytes before the first CR LF. -/
theorem StartLine.parse_append {L : Type} [StartLine L] (hs : lf ∉ s) (t : Bytes) :
    StartLine.parse (s ++ crlf ++ t) = (StartLine.ofLine (L := L) s).map fun l => (l, t) := by
  have hlf : lf ∉ s ++ [cr] := by
    simpa [hs] using cr_ne_lf.symm
  rw [StartLine.parse, show s ++ crlf ++ t = (s ++ [cr]) ++ lf :: t by simp [crlf],
    getline_append hlf]
  simp only [chompCr_append_cr]

theorem Message.parse_of_startLine {L : Type} [StartLine L] {l : L} {s t : Bytes}
    (h : StartLine.parse s = .ok (l, t)) :
    Message.parse s = .ok ⟨l, (Headers.parse t).1, (Headers.parse t).2⟩ := by
  rw [Message.parse, h]

/-- A blank ends a word. -/
theorem head_blank (s : Bytes) : ∀ b ∈ (ascii " " ++ s).head?, isSpace b = true := by
  rintro b ⟨⟩
  rfl

/-- A message that is parsed has a first line that is. -/
theorem Message.parse_eq_ok {L : Type} [StartLine L] {m : Message L}
    (h : Message.parse s = .ok m) :
    ∃ t, StartLine.parse s = .ok (m.line, t) ∧ Headers.parse t = (m.headers, m.body) := by
  rw [Message.parse] at h
  split at h
  next => cases h
  next l t hl =>
    cases h
    exact ⟨t, hl, rfl⟩

theorem StartLine.parse_eq_ok {L : Type} [StartLine L] {l : L} {t : Bytes}
    (h : StartLine.parse s = .ok (l, t)) :
    ∃ line, getline s = some (line, t) ∧ StartLine.ofLine (chompCr line) = .ok l := by
  rw [StartLine.parse] at h
  split at h
  next => cases h
  next line rest hline =>
    cases hof : StartLine.ofLine (L := L) (chompCr line) with
    | error e => rw [hof] at h; cases h
    | ok l' =>
      rw [hof] at h
      cases h
      exact ⟨line, hline, hof⟩

/-! ## Requests -/

namespace Request

/-- The requests that can be serialized: the path and the version are words, the
    headers stored as `operator[]` and `parse` store them. -/
structure Encodable (q : Request) : Prop where
  path : IsWord q.line.path
  version : IsWord q.line.version
  headers : Stored q.headers

/-- The headers `request::serialize` adds for those a request does not set. -/
def defaultHeader (q : Request) (k : Bytes) : Option Bytes :=
  if k = connectionKey then some (ascii "close")
  else if k = contentLengthKey ∧ q.body ≠ [] then some (decimal q.body.length)
  else none

/-- The headers a serialized request is read back with. -/
def withDefaults (q : Request) : Headers :=
  let h := if connectionKey ∈ q.headers then q.headers
    else q.headers.insert connectionKey (ascii "close")
  if contentLengthKey ∈ q.headers ∨ q.body = [] then h
  else h.insert contentLengthKey (decimal q.body.length)

theorem lookup_withDefaults (q : Request) (k : Bytes) :
    q.withDefaults.lookup k = (q.headers.lookup k).or (q.defaultHeader k) := by
  have hne : contentLengthKey ≠ connectionKey := by decide
  -- first the default of the connection, then that of the length
  have hconn : (if connectionKey ∈ q.headers then q.headers
      else q.headers.insert connectionKey (ascii "close")).lookup k =
        (q.headers.lookup k).or (if k = connectionKey then some (ascii "close") else none) := by
    split
    next hmem =>
      obtain ⟨v, hv⟩ := Finmap.mem_iff.1 hmem
      by_cases hk : k = connectionKey
      · rw [hk, hv, Option.some_or]
      · rw [if_neg hk, Option.or_none]
    next hmem =>
      by_cases hk : k = connectionKey
      · rw [hk, Finmap.lookup_insert, Finmap.lookup_eq_none.2 hmem, Option.none_or, if_pos rfl]
      · rw [Finmap.lookup_insert_of_ne _ hk, if_neg hk, Option.or_none]
  rw [withDefaults, defaultHeader]
  by_cases hk : k = contentLengthKey
  · subst hk
    rw [if_neg hne] at hconn ⊢
    rw [Option.or_none] at hconn
    by_cases hmem : contentLengthKey ∈ q.headers
    · obtain ⟨v, hv⟩ := Finmap.mem_iff.1 hmem
      rw [if_pos (.inl hmem), hconn, hv, Option.some_or]
    · by_cases hb : q.body = []
      · rw [if_pos (.inr hb), hconn, if_neg (by simp [hb]), Option.or_none]
      · rw [if_neg (by simp [hmem, hb]), Finmap.lookup_insert, if_pos ⟨rfl, hb⟩,
          Finmap.lookup_eq_none.2 hmem, Option.none_or]
  · simp only [hk, false_and, if_false]
    split
    · exact hconn
    · rw [Finmap.lookup_insert_of_ne _ hk, hconn]

theorem ofLine_words {m p w : Bytes} (hm : IsWord m) (hp : IsWord p) (hw : IsWord w) :
    StartLine.ofLine (m ++ ascii " " ++ p ++ ascii " " ++ w) =
      .ok (⟨stringToMethod m, p, w⟩ : RequestLine) := by
  have h₁ : extractWord (m ++ ascii " " ++ p ++ ascii " " ++ w) =
      some (m, ascii " " ++ (p ++ (ascii " " ++ w))) := by
    simpa using extractWord_append (x := []) (by simp) hm (head_blank _)
  have h₂ : extractWord (ascii " " ++ (p ++ (ascii " " ++ w))) = some (p, ascii " " ++ w) :=
    extractWord_append (by decide) hp (head_blank _)
  have h₃ : extractWord (ascii " " ++ w) = some (w, []) := by
    simpa using extractWord_append (x := ascii " ") (r := []) (by decide) hw (by simp)
  simp only [StartLine.ofLine, h₁, h₂, h₃]

/-- Normalized keys are compared as they are. -/
theorem any_toLower_eq {key : Bytes} (hs : ∀ k v, h.lookup k = some v → normalize k = k)
    (o : IterationOrder Bytes Bytes) :
    ((o.entries h).any fun e => toLower e.1 = key) = decide (key ∈ h) := by
  have hlower : ∀ k v, h.lookup k = some v → toLower k = k :=
    fun k v hv => toLower_of_normalize (hs k v hv)
  rw [Bool.eq_iff_iff, List.any_eq_true, decide_eq_true_iff, Finmap.mem_iff]
  constructor
  · rintro ⟨⟨k, v⟩, he, hk⟩
    have hv := o.mem_entries.1 he
    rw [decide_eq_true_iff, hlower k v hv] at hk
    exact ⟨v, hk ▸ hv⟩
  · rintro ⟨v, hv⟩
    exact ⟨⟨key, v⟩, o.mem_entries.2 hv, decide_eq_true_iff.2 (hlower key v hv)⟩

/-- A serialized request is read back as it was, with the default headers. -/
theorem parse_serialize {q : Request} (hq : q.Encodable) (o : IterationOrder Bytes Bytes) :
    Request.parse (q.serialize o) = .ok { q with headers := q.withDefaults } := by
  have hm := isWord_methodToString q.line.methodType
  have hlf : lf ∉ methodToString q.line.methodType ++ ascii " " ++ q.line.path ++ ascii " "
      ++ q.line.version := by
    simp only [List.mem_append, hm.lf_not_mem, hq.path.lf_not_mem, hq.version.lf_not_mem]
    decide
  have hline := StartLine.parse_append (L := RequestLine) hlf
  rw [ofLine_words hm hq.path hq.version, stringToMethod_methodToString] at hline
  have hnorm : ∀ k v, q.headers.lookup k = some v → normalize k = k :=
    fun k v hv => (hq.headers k v hv).1.normalized
  rw [Request.parse, Request.serialize]
  simp only [any_toLower_eq hnorm, List.append_assoc, Bool.and_eq_true, Bool.not_eq_true',
    decide_eq_false_iff_not, bne_iff_ne, ne_eq] at hline ⊢
  rw [Message.parse_of_startLine (hline _), parse_fieldLines hq.headers, parseFrom_connection,
    parseFrom_contentLength, parseFrom_crlf]
  simp only [withDefaults, ← not_or, ite_not]
  rfl

/-- What the parser returns can be serialized. -/
theorem encodable_of_parse {q : Request} (h : Request.parse s = .ok q) : q.Encodable := by
  obtain ⟨t, hline, hheaders⟩ := Message.parse_eq_ok h
  obtain ⟨line, _, hof⟩ := StartLine.parse_eq_ok hline
  simp only [StartLine.ofLine] at hof
  split at hof
  next => cases hof
  next m rest _ =>
    split at hof
    next => cases hof
    next p rest' hp =>
      split at hof
      next => cases hof
      next w _ hw =>
        rw [Except.ok.injEq] at hof
        exact ⟨hof ▸ isWord_of_extractWord hp, hof ▸ isWord_of_extractWord hw,
          stored_of_parse hheaders⟩

/-- The round trip of requests: whatever the order of iteration, a serialized
    request is read back with its method, path, version and body, and exactly
    its headers and the defaults for those it does not set; and every request
    the parser returns can be serialized so. -/
theorem roundTrip :
    (∀ (q : Request) (o : IterationOrder Bytes Bytes), q.Encodable →
      ∃ q', Request.parse (q.serialize o) = .ok q' ∧ q'.line = q.line ∧ q'.body = q.body ∧
        ∀ k, q'.headers.lookup k = (q.headers.lookup k).or (q.defaultHeader k)) ∧
    ∀ s q, Request.parse s = .ok q → q.Encodable :=
  ⟨fun q o hq => ⟨_, parse_serialize hq o, rfl, rfl, q.lookup_withDefaults⟩,
    fun _ _ => encodable_of_parse⟩

/-- A method outside the enumeration, a header without a key, and a body with a
    blank line in it. -/
def oddRequest : Request where
  line := { methodType := .unknown, path := ascii "/a", version := ascii "1" }
  headers := Finmap.insert [] (ascii "x") ∅
  body := ascii "\r\n\r\n"

theorem roundTrip_oddRequest :
    ∃ q', Request.parse (oddRequest.serialize default) = .ok q' ∧ q'.line = oddRequest.line ∧
      q'.body = oddRequest.body ∧
      ∀ k, q'.headers.lookup k = (oddRequest.headers.lookup k).or (oddRequest.defaultHeader k) :=
  roundTrip.1 oddRequest default
    ⟨⟨by decide, by decide⟩, ⟨by decide, by decide⟩,
      stored_empty.insert ⟨rfl, by decide, by decide⟩
        (isValue_of_isWord ⟨by decide, by decide⟩)⟩

end Request

/-! ## Responses -/

namespace Response

/-- The responses that can be serialized. -/
structure Encodable (r : Response) : Prop where
  version : IsWord r.line.version
  headers : Stored r.headers

/-- The headers a serialized response is read back with: the last two lines of
    its header block are always those of `response::serialize` itself. -/
def readBackHeaders (r : Response) : Headers :=
  (r.headers.insert contentLengthKey (decimal r.body.length)).insert connectionKey (ascii "close")

theorem ofLine_words {v : Bytes} (hv : IsWord v) (code : UInt16) (t : Bytes) :
    StartLine.ofLine (v ++ ascii " " ++ decimal code.toNat ++ ascii " " ++ t) =
      .ok (⟨⟨code⟩, v⟩ : StatusLine) := by
  have h₁ : extractWord (v ++ ascii " " ++ decimal code.toNat ++ ascii " " ++ t) =
      some (v, ascii " " ++ (decimal code.toNat ++ (ascii " " ++ t))) := by
    simpa using extractWord_append (x := []) (by simp) hv (head_blank _)
  have h₂ : extractUnsigned (2 ^ 16) (ascii " " ++ (decimal code.toNat ++ (ascii " " ++ t))) =
      some (code.toNat, ascii " " ++ t) :=
    extractUnsigned_append (by decide) code.toNat_lt (by rintro b ⟨⟩; rfl)
  simp only [StartLine.ofLine, h₁, h₂]
  simp

/-- No normalized key is spelled with a capital. -/
theorem any_eq_false (key : Bytes) (hs : ∀ k v, h.lookup k = some v → normalize k = k)
    (hkey : normalize key ≠ key) (o : IterationOrder Bytes Bytes) :
    ((o.entries h).any fun e => e.1 = key) = false := by
  rw [List.any_eq_false]
  rintro ⟨k, v⟩ he hk
  rw [decide_eq_true_iff] at hk
  exact hkey (hk ▸ hs k v (o.mem_entries.1 he))

theorem lf_not_mem_statusLine {line : StatusLine} (hv : lf ∉ line.version) :
    lf ∉ line.version ++ ascii " " ++ decimal line.statusCode.toUnderlying.toNat ++ ascii " "
      ++ statusTextFor line.statusCode := by
  simp only [List.mem_append, hv, (isWord_decimal _).lf_not_mem, lf_not_mem_statusTextFor]
  decide

/-- A serialized response is read back with the length of its body and
    `connection: close`, whatever the other headers `h'` are read back as. -/
theorem parse_serialize_of_fieldLines {r : Response} {h' : Headers} (hv : IsWord r.line.version)
    (hn : ∀ k v, r.headers.lookup k = some v → normalize k = k) (o : IterationOrder Bytes Bytes)
    (hh' : ∀ s, Headers.parse (fieldLines (o.entries r.headers) ++ s) = parseFrom h' s) :
    Response.parse (r.serialize o) = .ok { r with
      headers := (Finmap.insert contentLengthKey (decimal r.body.length) h').insert connectionKey
        (ascii "close") } := by
  have hline := StartLine.parse_append (L := StatusLine) (lf_not_mem_statusLine hv.lf_not_mem)
  rw [ofLine_words hv] at hline
  rw [Response.parse, Response.serialize]
  simp only [any_eq_false (ascii "Content-Length") hn (by decide),
    any_eq_false (ascii "Connection") hn (by decide), List.append_assoc,
    Bool.not_false] at hline ⊢
  rw [Message.parse_of_startLine (hline _), hh', parseFrom_contentLength, parseFrom_connection,
    parseFrom_crlf]
  rfl

/-- So it is with those it was serialized with. -/
theorem parse_serialize {r : Response} (hr : r.Encodable) (o : IterationOrder Bytes Bytes) :
    Response.parse (r.serialize o) = .ok { r with headers := r.readBackHeaders } :=
  parse_serialize_of_fieldLines hr.version (fun k v hv => (hr.headers k v hv).1.normalized) o
    (parse_fieldLines hr.headers o)

/-- What the parser returns can be serialized. -/
theorem encodable_of_parse {r : Response} (h : Response.parse s = .ok r) : r.Encodable := by
  obtain ⟨t, hline, hheaders⟩ := Message.parse_eq_ok h
  obtain ⟨line, _, hof⟩ := StartLine.parse_eq_ok hline
  simp only [StartLine.ofLine] at hof
  split at hof
  next => cases hof
  next v rest hv =>
    split at hof
    next => cases hof
    next =>
      rw [Except.ok.injEq] at hof
      exact ⟨hof ▸ isWord_of_extractWord hv, stored_of_parse hheaders⟩

/-- The headers `response::serialize` adds for those a response does not set. -/
def defaultHeader (r : Response) (k : Bytes) : Option Bytes :=
  if k = contentLengthKey then some (decimal r.body.length)
  else if k = connectionKey then some (ascii "close")
  else none

/-- A response is read back with its version, status code and body, and exactly
    its headers and the defaults for those it does not set. -/
def RoundTrips (r : Response) (o : IterationOrder Bytes Bytes) : Prop :=
  ∃ r', Response.parse (r.serialize o) = .ok r' ∧ r'.line = r.line ∧ r'.body = r.body ∧
    ∀ k, r'.headers.lookup k = (r.headers.lookup k).or (r.defaultHeader k)

/-- The header `key`, if it is set at all, is set to `v`. -/
def SetsOnly (r : Response) (key v : Bytes) : Prop := ∀ v', r.headers.lookup key = some v' → v' = v

theorem lookup_readBackHeaders (r : Response) (k : Bytes) :
    r.readBackHeaders.lookup k = (r.defaultHeader k).or (r.headers.lookup k) := by
  rw [readBackHeaders, defaultHeader]
  by_cases hc : k = connectionKey
  · subst hc
    rw [Finmap.lookup_insert, if_neg (by decide), if_pos rfl, Option.some_or]
  · rw [Finmap.lookup_insert_of_ne _ hc, if_neg hc]
    by_cases hl : k = contentLengthKey
    · rw [hl, Finmap.lookup_insert, if_pos rfl, Option.some_or]
    · rw [Finmap.lookup_insert_of_ne _ hl, if_neg hl, Option.none_or]

/-- The defaults and the headers set agree where both are there. -/
theorem or_comm_iff {a b : Option Bytes} :
    a.or b = b.or a ↔ ∀ x y, a = some x → b = some y → x = y := by
  cases a <;> cases b <;> simp

/-- The round trip of responses: a response is read back as it was exactly if it
    does not set the length of its body or the connection other than
    `response::serialize` does; and every response the parser returns can be
    serialized. -/
theorem roundTrips_iff (r : Response) (o : IterationOrder Bytes Bytes) :
    (r.Encodable → (r.RoundTrips o ↔ r.SetsOnly contentLengthKey (decimal r.body.length) ∧
      r.SetsOnly connectionKey (ascii "close"))) ∧
    ∀ s, Response.parse s = .ok r → r.Encodable := by
  refine ⟨fun hr => ?_, fun _ => encodable_of_parse⟩
  -- what is read back has the defaults first, then the headers set
  have hback : r.RoundTrips o ↔
      ∀ k, (r.defaultHeader k).or (r.headers.lookup k) =
        (r.headers.lookup k).or (r.defaultHeader k) := by
    simp only [RoundTrips, parse_serialize hr o, Except.ok.injEq, exists_eq_left',
      lookup_readBackHeaders, true_and]
  simp only [hback, or_comm_iff]
  constructor
  · intro h
    exact ⟨fun v hv => (h contentLengthKey _ v (if_pos rfl) hv).symm,
      fun v hv => (h connectionKey _ v rfl hv).symm⟩
  · rintro ⟨hl, hc⟩ k x y hx hy
    rw [defaultHeader] at hx
    split at hx
    next hk =>
      rw [Option.some.injEq] at hx
      exact hx ▸ (hl y (hk ▸ hy)).symm
    next =>
      split at hx
      next hk =>
        rw [Option.some.injEq] at hx
        exact hx ▸ (hc y (hk ▸ hy)).symm
      next => cases hx

/-- A response that keeps the connection open. -/
def keepAlive : Response where
  line := { statusCode := .ok, version := httpVersion }
  headers := Finmap.insert connectionKey (ascii "keep-alive") ∅
  body := []

theorem encodable_keepAlive : keepAlive.Encodable :=
  ⟨⟨by decide, by decide⟩, stored_empty.insert ⟨rfl, by decide, by decide⟩
    (isValue_of_isWord ⟨by decide, by decide⟩)⟩

/-- A response the parser returns, to a peer that keeps the connection open, is
    read back as one that closes it. -/
theorem not_roundTrips_keepAlive :
    Response.parse (ascii "HTTP/1.1 200 OK\r\nConnection: keep-alive\r\n\r\n") =
      .ok keepAlive ∧ keepAlive.Encodable ∧ ∀ o, ¬keepAlive.RoundTrips o := by
  refine ⟨by decide +kernel, encodable_keepAlive, ?_⟩
  rintro o ⟨r', hr', -, -, hk⟩
  rw [parse_serialize encodable_keepAlive o, Except.ok.injEq] at hr'
  subst hr'
  have := hk connectionKey
  rw [lookup_readBackHeaders] at this
  exact absurd this (by decide)

theorem roundTrips_iff_keepAlive :
    keepAlive.RoundTrips default ↔ keepAlive.SetsOnly contentLengthKey (decimal 0) ∧
      keepAlive.SetsOnly connectionKey (ascii "close") :=
  (roundTrips_iff keepAlive default).1 encodable_keepAlive

end Response

end Dss.Http
