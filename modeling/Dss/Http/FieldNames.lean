import Dss.Http.Codec
import Dss.Http.Server

/-!
# The names of the fields of a serialized message

The header block a message is serialized with, and the names of its lines. In both
serializers the lines of the headers set come first, then the defaults:

* `request::serialize` writes a default line for a header that is not set, so that a
  name occurs twice only if a key with a colon puts it there
  (`Request.namesOnce_iff`);
* `response::serialize` writes both default lines whatever is set, so that a name
  also occurs twice if the response sets the length or the connection
  (`Response.namesOnce_iff`).
-/

namespace Dss.Http

open Dss.Lib Dss.Utils

namespace Headers

/-- The name of a line of a header block, in lower case: what comes before its first
    colon. -/
def fieldName (line : Bytes) : Bytes := toLower (line.takeWhile (· ≠ colon))

/-- The names of the lines of a header block. -/
def fieldNames (block : Bytes) : List Bytes := (lines block).map fun l => fieldName (chompCr l)

/-- The lines of the block have different names; one is that of the connection, and at
    most one that of the length. -/
structure NamesOnce (block : Bytes) : Prop where
  nodup : (fieldNames block).Nodup
  connection : (fieldNames block).count connectionKey = 1
  contentLength : (fieldNames block).count contentLengthKey ≤ 1

theorem namesOnce_iff {block : Bytes} :
    NamesOnce block ↔ (fieldNames block).Nodup ∧ connectionKey ∈ fieldNames block := by
  constructor
  · intro h
    exact ⟨h.nodup, List.count_pos_iff.1 (by rw [h.connection]; exact Nat.one_pos)⟩
  · rintro ⟨hnodup, hmem⟩
    exact ⟨hnodup, List.count_eq_one_of_mem hnodup hmem,
      List.nodup_iff_count_le_one.1 hnodup contentLengthKey⟩

/-- Headers with keys as `operator[]` and `parse` store them, and no LF in a key or
    value. -/
structure Lined (h : Headers) : Prop where
  normalized : ∀ k v, h.lookup k = some v → normalize k = k
  no_lf : ∀ k v, h.lookup k = some v → lf ∉ k ∧ lf ∉ v

/-- The keys of the headers have different names. -/
def NamesDiffer (h : Headers) : Prop :=
  ∀ k ∈ h, ∀ k' ∈ h, fieldName k = fieldName k' → k = k'

/-- No key of the headers has the name `name`. -/
def Unnamed (h : Headers) (name : Bytes) : Prop := ∀ k ∈ h, fieldName k ≠ name

variable {h : Headers} {k v : Bytes}

theorem lined_empty : Lined ∅ :=
  ⟨fun k v hv => by simp at hv, fun k v hv => by simp at hv⟩

/-- `operator[]` normalizes the keys. -/
theorem Lined.assignMove (hh : Lined h) (hk : lf ∉ k) (hv : lf ∉ v) :
    Lined (h.assignMove k v) := by
  rw [assignMove_eq]
  have hnorm := normalize_normalize k
  have hlf : lf ∉ normalize k := fun hm => by
    obtain ⟨c, hc, he⟩ := List.mem_map.1 hm
    exact hk ((lower_eq_iff c).2.1 he ▸ mem_of_mem_trim hc)
  constructor <;> intro k' v' hl <;> by_cases hkk : k' = normalize k
  · exact hkk ▸ hnorm
  · exact hh.normalized k' v' (by rwa [Finmap.lookup_insert_of_ne _ hkk] at hl)
  · subst hkk
    rw [Finmap.lookup_insert, Option.some.injEq] at hl
    exact hl ▸ ⟨hlf, hv⟩
  · exact hh.no_lf k' v' (by rwa [Finmap.lookup_insert_of_ne _ hkk] at hl)

/-- A key without a colon is its own name. -/
theorem fieldName_eq_self (hn : normalize k = k) (hc : colon ∉ k) : fieldName k = k := by
  have htake : k.takeWhile (· ≠ colon) = k :=
    List.takeWhile_eq_self_iff.2 fun b hb => decide_eq_true fun he => hc (he ▸ hb)
  rw [fieldName, htake, toLower_of_normalize hn]

/-- Keys without a colon are names of their own. -/
theorem namesDiffer_of_colon (hn : ∀ k v, h.lookup k = some v → normalize k = k)
    (hc : ∀ k ∈ h, colon ∉ k) : NamesDiffer h := by
  have hself : ∀ k ∈ h, fieldName k = k := fun k hk =>
    let ⟨v, hv⟩ := Finmap.mem_iff.1 hk
    fieldName_eq_self (hn k v hv) (hc k hk)
  intro k hk k' hk' heq
  rwa [hself k hk, hself k' hk'] at heq

/-- What is behind the key does not change its name. -/
theorem fieldName_append (k s : Bytes) : fieldName (k ++ colon :: s) = fieldName k := by
  rw [fieldName, fieldName, List.takeWhile_append]
  split
  next hlen => rw [List.takeWhile_cons_of_neg (by simp), List.append_nil,
      (List.takeWhile_prefix _).eq_of_length hlen]
  next => rfl

theorem fieldNames_fieldLine (hk : lf ∉ k) (hv : lf ∉ v) (s : Bytes) :
    fieldNames (fieldLine k v ++ s) = fieldName k :: fieldNames s := by
  rw [fieldLine_append, fieldNames, lines_append (lf_not_mem_fieldLine hk hv), List.map_cons,
    chompCr_append_cr, fieldName_append, fieldNames]

theorem fieldNames_fieldLines {l : List (Σ _ : Bytes, Bytes)}
    (hl : ∀ e ∈ l, lf ∉ e.1 ∧ lf ∉ e.2) (s : Bytes) :
    fieldNames (fieldLines l ++ s) = l.keys.map fieldName ++ fieldNames s := by
  induction l with
  | nil => rfl
  | cons e l ih =>
    obtain ⟨hk, hv⟩ := hl e List.mem_cons_self
    rw [fieldLines, List.flatMap_cons, List.append_assoc, fieldNames_fieldLine hk hv,
      List.keys_cons, List.map_cons, List.cons_append]
    exact congrArg _ (ih fun e he => hl e (List.mem_cons_of_mem _ he))

/-- A line that is written on a condition. -/
theorem fieldNames_ite (c : Prop) [Decidable c] (hk : lf ∉ k) (hv : lf ∉ v) (s : Bytes) :
    fieldNames ((if c then fieldLine k v else []) ++ s) =
      (if c then [fieldName k] else []) ++ fieldNames s := by
  split
  · exact fieldNames_fieldLine hk hv s
  · rfl

/-! ## The names of the headers set -/

variable (o : IterationOrder Bytes Bytes)

theorem mem_keys_entries : k ∈ (o.entries h).keys ↔ k ∈ h := by
  rw [List.mem_keys, Finmap.mem_iff]
  exact exists_congr fun v => o.mem_entries

theorem nodup_fieldName_iff : ((o.entries h).keys.map fieldName).Nodup ↔ NamesDiffer h := by
  rw [List.nodup_map_iff_inj_on (o.nodupKeys_entries h)]
  simp only [mem_keys_entries, NamesDiffer]

theorem notMem_fieldName_iff {name : Bytes} :
    name ∉ (o.entries h).keys.map fieldName ↔ Unnamed h name := by
  simp only [List.mem_map, mem_keys_entries, not_exists, not_and, Unnamed, ne_eq]

/-- A name set by its own key. -/
theorem mem_fieldName (hn : fieldName k = k) (hk : k ∈ h) :
    k ∈ (o.entries h).keys.map fieldName :=
  List.mem_map.2 ⟨k, (mem_keys_entries o).2 hk, hn⟩

end Headers

open Headers

variable (o : IterationOrder Bytes Bytes)

/-- The line of a request, as it is serialized. -/
def RequestLine.serialize (l : RequestLine) : Bytes :=
  methodToString l.methodType ++ ascii " " ++ l.path ++ ascii " " ++ l.version

/-- The line of a response, as it is serialized. -/
def StatusLine.serialize (l : StatusLine) : Bytes :=
  l.version ++ ascii " " ++ decimal l.statusCode.toUnderlying.toNat ++ ascii " "
    ++ statusTextFor l.statusCode

/-- The names of a request: those of the headers set, and the defaults that are
    missing. -/
theorem Request.exists_fieldNames {q : Request} (hq : Lined q.headers) :
    ∃ block, q.serialize o = q.line.serialize ++ crlf ++ block ++ crlf ++ q.body ∧
      fieldNames block = (o.entries q.headers).keys.map fieldName ++
        ((if connectionKey ∉ q.headers then [connectionKey] else []) ++
          if contentLengthKey ∉ q.headers ∧ q.body ≠ [] then [contentLengthKey] else []) := by
  refine ⟨fieldLines (o.entries q.headers)
    ++ ((if connectionKey ∉ q.headers then fieldLine (ascii "Connection") (ascii "close") else [])
    ++ ((if contentLengthKey ∉ q.headers ∧ q.body ≠ [] then
          fieldLine (ascii "Content-Length") (decimal q.body.length) else []) ++ [])), ?_, ?_⟩
  · simp only [Request.serialize, Request.any_toLower_eq hq.normalized, RequestLine.serialize,
      List.append_assoc, List.append_nil, Bool.and_eq_true, Bool.not_eq_true',
      decide_eq_false_iff_not, bne_iff_ne]
    rfl
  · rw [fieldNames_fieldLines fun e he => hq.no_lf _ _ (o.mem_entries.1 he),
      fieldNames_ite _ (by decide) (by decide),
      fieldNames_ite _ (by decide) (isWord_decimal _).lf_not_mem]
    simp [fieldNames, show fieldName (ascii "Connection") = connectionKey by decide,
      show fieldName (ascii "Content-Length") = contentLengthKey by decide]

/-- The names of a response: those of the headers set, and both defaults. -/
theorem Response.exists_fieldNames {r : Response} (hr : Lined r.headers) :
    ∃ block, r.serialize o = r.line.serialize ++ crlf ++ block ++ crlf ++ r.body ∧
      fieldNames block = (o.entries r.headers).keys.map fieldName ++
        [contentLengthKey, connectionKey] := by
  refine ⟨fieldLines (o.entries r.headers)
    ++ (fieldLine (ascii "Content-Length") (decimal r.body.length)
    ++ (fieldLine (ascii "Connection") (ascii "close") ++ [])), ?_, ?_⟩
  · simp only [Response.serialize, StatusLine.serialize,
      Response.any_eq_false (ascii "Content-Length") hr.normalized (by decide),
      Response.any_eq_false (ascii "Connection") hr.normalized (by decide), List.append_assoc,
      List.append_nil, Bool.not_false, if_true]
  · rw [fieldNames_fieldLines fun e he => hr.no_lf _ _ (o.mem_entries.1 he),
      fieldNames_fieldLine (by decide) (isWord_decimal _).lf_not_mem,
      fieldNames_fieldLine (by decide) (by decide)]
    rfl

/-- A request names every field once exactly if no key with a colon repeats the name of
    another key, or that of a default that is missing. -/
theorem Request.namesOnce_iff {q : Request} (hq : Lined q.headers) :
    ∃ block, q.serialize o = q.line.serialize ++ crlf ++ block ++ crlf ++ q.body ∧
      (NamesOnce block ↔ NamesDiffer q.headers ∧
        (connectionKey ∈ q.headers ∨ Unnamed q.headers connectionKey) ∧
        (contentLengthKey ∈ q.headers ∨ q.body = [] ∨ Unnamed q.headers contentLengthKey)) := by
  obtain ⟨block, hblock, hnames⟩ := q.exists_fieldNames o hq
  refine ⟨block, hblock, ?_⟩
  have hne : connectionKey ≠ contentLengthKey := by decide
  have hconn : connectionKey ∈ fieldNames block := by
    rw [hnames]
    by_cases hc : connectionKey ∈ q.headers
    · exact List.mem_append_left _ (mem_fieldName o (by decide) hc)
    · simp [hc]
  rw [Headers.namesOnce_iff, and_iff_left hconn, hnames, List.nodup_append',
    nodup_fieldName_iff]
  refine and_congr_right fun _ => ?_
  simp only [← notMem_fieldName_iff o]
  by_cases hc : connectionKey ∈ q.headers <;> by_cases hl : contentLengthKey ∈ q.headers <;>
    by_cases hb : q.body = [] <;> simp [hc, hl, hb, hne]

/-- A response names every field once exactly if no key with a colon repeats the name
    of another key, and none has the name of a default. -/
theorem Response.namesOnce_iff {r : Response} (hr : Lined r.headers) :
    ∃ block, r.serialize o = r.line.serialize ++ crlf ++ block ++ crlf ++ r.body ∧
      (NamesOnce block ∧ (fieldNames block).count contentLengthKey = 1 ↔
        NamesDiffer r.headers ∧ Unnamed r.headers connectionKey ∧
          Unnamed r.headers contentLengthKey) := by
  obtain ⟨block, hblock, hnames⟩ := r.exists_fieldNames o hr
  refine ⟨block, hblock, ?_⟩
  have hconn : connectionKey ∈ fieldNames block := by simp [hnames]
  have hlen : contentLengthKey ∈ fieldNames block := by simp [hnames]
  have hdefaults : [contentLengthKey, connectionKey].Nodup := by decide
  have hcount : (fieldNames block).Nodup → (fieldNames block).count contentLengthKey = 1 :=
    fun hnodup => List.count_eq_one_of_mem hnodup hlen
  rw [Headers.namesOnce_iff, and_iff_left hconn, and_iff_left_of_imp hcount, hnames,
    List.nodup_append', nodup_fieldName_iff, and_iff_right hdefaults]
  refine and_congr_right fun _ => ?_
  simp [← notMem_fieldName_iff o, and_comm]

/-- A request with keys without a colon names every field once. -/
theorem Request.namesOnce_of_colon {q : Request} (hq : Lined q.headers)
    (hc : ∀ k ∈ q.headers, colon ∉ k) :
    ∃ block, q.serialize o = q.line.serialize ++ crlf ++ block ++ crlf ++ q.body ∧
      NamesOnce block := by
  obtain ⟨block, hblock, hiff⟩ := q.namesOnce_iff o hq
  have hdefault : ∀ key, key ∈ q.headers ∨ Unnamed q.headers key := by
    refine fun key => or_iff_not_imp_left.2 fun hkey k hk he => hkey ?_
    obtain ⟨v, hv⟩ := Finmap.mem_iff.1 hk
    rw [fieldName_eq_self (hq.normalized k v hv) (hc k hk)] at he
    exact he ▸ hk
  exact ⟨block, hblock, hiff.2 ⟨namesDiffer_of_colon hq.normalized hc, hdefault _,
    (hdefault _).imp_right .inr⟩⟩

/-- A response that sets a field `response::serialize` also writes names it twice. -/
theorem Response.not_namesOnce_of_mem {r : Response} (hr : Lined r.headers) (key : Bytes)
    (hkey : key ∈ r.headers) (hdefault : key = connectionKey ∨ key = contentLengthKey) :
    ∃ block, r.serialize o = r.line.serialize ++ crlf ++ block ++ crlf ++ r.body ∧
      ¬(NamesOnce block ∧ (fieldNames block).count contentLengthKey = 1) := by
  obtain ⟨block, hblock, hiff⟩ := r.namesOnce_iff o hr
  refine ⟨block, hblock, fun h => ?_⟩
  obtain ⟨-, hconn, hlen⟩ := hiff.1 h
  rcases hdefault with rfl | rfl
  · exact hconn _ hkey (by decide)
  · exact hlen _ hkey (by decide)

/-- So does every response a server session writes. -/
theorem ServerSession.not_namesOnce_answer (req : Request) (outcome : Except Bytes Response)
    (hr : Lined (answer req outcome).1.headers) :
    ∃ block, (answer req outcome).1.serialize o = (answer req outcome).1.line.serialize ++ crlf
        ++ block ++ crlf ++ (answer req outcome).1.body ∧
      ¬(NamesOnce block ∧ (fieldNames block).count contentLengthKey = 1) := by
  refine Response.not_namesOnce_of_mem o hr connectionKey ?_ (.inl rfl)
  simp only [answer, assignMove_eq, show normalize (ascii "Connection") = connectionKey by decide]
  exact Finmap.mem_insert.2 (.inl rfl)

/-- Which serialized messages name every field once. -/
theorem serialize_namesOnce_iff :
    (∀ q : Request, Lined q.headers →
      ∃ block, q.serialize o = q.line.serialize ++ crlf ++ block ++ crlf ++ q.body ∧
        (NamesOnce block ↔ NamesDiffer q.headers ∧
          (connectionKey ∈ q.headers ∨ Unnamed q.headers connectionKey) ∧
          (contentLengthKey ∈ q.headers ∨ q.body = [] ∨
            Unnamed q.headers contentLengthKey))) ∧
    ∀ r : Response, Lined r.headers →
      ∃ block, r.serialize o = r.line.serialize ++ crlf ++ block ++ crlf ++ r.body ∧
        (NamesOnce block ∧ (fieldNames block).count contentLengthKey = 1 ↔
          NamesDiffer r.headers ∧ Unnamed r.headers connectionKey ∧
            Unnamed r.headers contentLengthKey) :=
  ⟨fun q => q.namesOnce_iff o, fun r => r.namesOnce_iff o⟩

theorem lined_text (text : Bytes) : Lined (Response.text .ok text).headers :=
  (lined_empty.assignMove (by decide) (by decide)).assignMove (by decide)
    (isWord_decimal _).lf_not_mem

theorem serialize_namesOnce_iff_text :
    (∃ block, (Response.text .ok (ascii "hi")).serialize default =
      (Response.text .ok (ascii "hi")).line.serialize ++ crlf ++ block ++ crlf ++ ascii "hi" ∧
      (NamesOnce block ∧ (fieldNames block).count contentLengthKey = 1 ↔
        NamesDiffer (Response.text .ok (ascii "hi")).headers ∧
          Unnamed (Response.text .ok (ascii "hi")).headers connectionKey ∧
            Unnamed (Response.text .ok (ascii "hi")).headers contentLengthKey)) :=
  (serialize_namesOnce_iff default).2 _ (lined_text _)

/-- `response::text` sets the length, and `response::serialize` writes it once more. -/
theorem not_namesOnce_text :
    Lined (Response.text .ok (ascii "hi")).headers ∧ ∀ o, ∃ block,
      (Response.text .ok (ascii "hi")).serialize o =
        (Response.text .ok (ascii "hi")).line.serialize ++ crlf ++ block ++ crlf ++ ascii "hi" ∧
      ¬(NamesOnce block ∧ (fieldNames block).count contentLengthKey = 1) :=
  ⟨lined_text _, fun o =>
    Response.not_namesOnce_of_mem o (lined_text _) contentLengthKey (by decide) (.inr rfl)⟩

end Dss.Http
