import Dss.Lib.Decimal
import Dss.Lib.UnorderedMap
import Dss.Utils.Strings

/-!
# Methods, status codes and headers

`headers_t` is an `unordered_map` that overrides `operator[]` and `find` to
normalize the key they are given; each has an overload for `const std::string &`,
which normalizes a copy, and one for `std::string &&`, which normalizes in
place. `Headers.parse` is the loop over the lines of a header block; it is
computed with the length of the stream as fuel, since every line takes at least
one byte, and `Headers.parseFrom_eq` is its equation without fuel.
-/

namespace Dss.Http

open Dss.Lib Dss.Utils

/-- `core::http_error`, with the text it is thrown with. -/
structure HttpError where
  what : String
  deriving DecidableEq, Repr

/-! ## Methods -/

inductive Method
  | get
  | post
  | put
  | delete
  | patch
  | head
  | options
  | unknown
  deriving DecidableEq, Repr

def stringToMethod (str : Bytes) : Method :=
  if str = ascii "GET" then .get
  else if str = ascii "POST" then .post
  else if str = ascii "PUT" then .put
  else if str = ascii "DELETE" then .delete
  else if str = ascii "PATCH" then .patch
  else if str = ascii "HEAD" then .head
  else if str = ascii "OPTIONS" then .options
  else .unknown

def methodToString : Method → Bytes
  | .get => ascii "GET"
  | .post => ascii "POST"
  | .put => ascii "PUT"
  | .delete => ascii "DELETE"
  | .patch => ascii "PATCH"
  | .head => ascii "HEAD"
  | .options => ascii "OPTIONS"
  | .unknown => ascii "UNKNOWN"

theorem stringToMethod_methodToString (m : Method) : stringToMethod (methodToString m) = m := by
  cases m <;> rfl

theorem isWord_methodToString (m : Method) : IsWord (methodToString m) where
  ne_nil := by cases m <;> decide
  no_space := by cases m <;> decide

/-! ## Status codes -/

/-- `status_code`, an enumeration over `std::uint16_t`: `from_underlying` casts
    any 16-bit value to it, named or not. -/
structure StatusCode where
  ofUnderlying ::
  toUnderlying : UInt16
  deriving DecidableEq, Repr

def StatusCode.ok : StatusCode := ⟨200⟩
def StatusCode.internalServerError : StatusCode := ⟨500⟩

def statusTextFor (code : StatusCode) : Bytes :=
  match code.toUnderlying.toNat with
  | 200 => ascii "OK"
  | 201 => ascii "Created"
  | 204 => ascii "No Content"
  | 301 => ascii "Moved Permanently"
  | 302 => ascii "Found"
  | 304 => ascii "Not Modified"
  | 400 => ascii "Bad Request"
  | 401 => ascii "Unauthorized"
  | 403 => ascii "Forbidden"
  | 404 => ascii "Not Found"
  | 405 => ascii "Method Not Allowed"
  | 408 => ascii "Request Timeout"
  | 413 => ascii "Payload Too Large"
  | 431 => ascii "Request Header Fields Too Large"
  | 500 => ascii "Internal Server Error"
  | 502 => ascii "Bad Gateway"
  | 503 => ascii "Service Unavailable"
  | _ => ascii "Unknown"

theorem lf_not_mem_statusTextFor (code : StatusCode) : lf ∉ statusTextFor code := by
  unfold statusTextFor
  split <;> decide

/-! ## Headers -/

/-- `headers_t`. -/
abbrev Headers := UnorderedMap Bytes Bytes

namespace Headers

/-- `headers[key] = value` through `operator[](const std::string &)`. -/
def assign (h : Headers) (key value : Bytes) : Headers := h.insert (normalize key) value

/-- `headers.find(key)` through the overloads for `const std::string &`. -/
def find (h : Headers) (key : Bytes) : Option Bytes := h.lookup (normalize key)

/-- `headers[key] = value` through `operator[](std::string &&)`. -/
def assignMove (h : Headers) (key value : Bytes) : Headers :=
  h.insert (normalizeInPlace key) value

/-- `headers.find(key)` through the overloads for `std::string &&`. -/
def findMove (h : Headers) (key : Bytes) : Option Bytes := h.lookup (normalizeInPlace key)

@[simp] theorem assignMove_eq (h : Headers) (key value : Bytes) :
    h.assignMove key value = h.insert (normalize key) value := by
  rw [assignMove, normalizeInPlace_eq_normalize]

@[simp] theorem findMove_eq (h : Headers) (key : Bytes) :
    h.findMove key = h.lookup (normalize key) := by
  rw [findMove, normalizeInPlace_eq_normalize]

def colon : Byte := 58

/-- `if (!line.empty() && line.back() == '\r') line.pop_back();` -/
def chompCr (line : Bytes) : Bytes := if line.getLast? = some cr then line.dropLast else line

/-- The entry of a header line, if it has a colon. -/
def parseLine (h : Headers) (line : Bytes) : Headers :=
  match line.findIdx? (· == colon) with
  | none => h
  | some i => h.assignMove (line.take i) (trimInPlace (line.drop (i + 1)))

/-- The loop of `headers_t::parse`, for at most `fuel` lines: the headers, and
    what is left of the stream. -/
def parseLoop : ℕ → Headers → Bytes → Headers × Bytes
  | 0, h, s => (h, s)
  | fuel + 1, h, s =>
    match getline s with
    | none => (h, s)
    | some (line, rest) =>
      let line := chompCr line
      if line = [] then (h, rest) else parseLoop fuel (h.parseLine line) rest

/-- The loop with the headers `h` read so far, to its end. -/
def parseFrom (h : Headers) (s : Bytes) : Headers × Bytes := parseLoop s.length h s

def parse (s : Bytes) : Headers × Bytes := parseFrom ∅ s

def contentLengthError : HttpError :=
  ⟨"request parsing error: invalid 'Content-Length' header"⟩

def contentLength (h : Headers) : Except HttpError ℕ :=
  match h.findMove (ascii "Content-Length") with
  | none => .ok 0
  | some value =>
    if value = [] then .error contentLengthError
    else match fromChars (2 ^ 64) value with
      | some (n, []) => .ok n
      | _ => .error contentLengthError

/-- The difference of two numbers of type `std::size_t`. -/
def sizeSub (a b : ℕ) : ℕ := (2 ^ 64 + a - b) % 2 ^ 64

/-- How many bytes of the body are still to be read. -/
def remaining (h : Headers) (body : Bytes) : Except HttpError ℕ :=
  h.contentLength.map fun expected =>
    let actual := body.length
    if actual < expected then sizeSub expected actual else 0

/-- What both sessions make of the headers of a message for `m_keep_alive`:
    `!(it != headers.end() && it->second == "close")`. -/
def keepsAlive (h : Headers) : Bool := h.findMove (ascii "connection") ≠ some (ascii "close")

/-! ### The loop -/

variable {h : Headers} {s l r : Bytes} {n : ℕ}

theorem parseLoop_of_length_le (hn : s.length ≤ n) : parseLoop n h s = parseFrom h s := by
  -- on the fuel, as long as it lasts for the bytes left
  suffices ∀ m n (h : Headers) (s : Bytes), s.length ≤ m → s.length ≤ n →
      parseLoop n h s = parseLoop m h s from this _ _ _ _ le_rfl hn
  intro m
  induction m with
  | zero =>
    intro n h s hm _
    rw [List.eq_nil_of_length_eq_zero (Nat.le_zero.1 hm)]
    cases n <;> rfl
  | succ m ih =>
    intro n h s hm hn
    cases n with
    | zero =>
      rw [List.eq_nil_of_length_eq_zero (Nat.le_zero.1 hn)]
      rfl
    | succ n =>
      rw [parseLoop, parseLoop]
      cases hline : getline s with
      | none => rfl
      | some p =>
        have hlt := length_of_getline hline
        simp only
        rw [ih n _ p.2 (by omega) (by omega)]

/-- The equation of the loop. -/
theorem parseFrom_eq (h : Headers) (s : Bytes) :
    parseFrom h s = match getline s with
      | none => (h, s)
      | some (line, rest) =>
        if chompCr line = [] then (h, rest) else parseFrom (h.parseLine (chompCr line)) rest := by
  cases s with
  | nil => rfl
  | cons b s =>
    rw [parseFrom, List.length_cons, parseLoop]
    cases hline : getline (b :: s) with
    | none => rfl
    | some p =>
      have hlt := length_of_getline hline
      rw [List.length_cons] at hlt
      simp only
      rw [parseLoop_of_length_le (by omega)]

/-- The loop stops behind a blank line. -/
theorem parseFrom_blank (hl : lf ∉ l) (hblank : chompCr l = []) :
    parseFrom h (l ++ lf :: r) = (h, r) := by
  rw [parseFrom_eq, getline_append hl]
  exact if_pos hblank

/-- The loop goes on behind any other line. -/
theorem parseFrom_line (hl : lf ∉ l) (hne : chompCr l ≠ []) :
    parseFrom h (l ++ lf :: r) = parseFrom (h.parseLine (chompCr l)) r := by
  rw [parseFrom_eq, getline_append hl]
  exact if_neg hne

@[simp] theorem chompCr_append_cr (l : Bytes) : chompCr (l ++ [cr]) = l := by
  simp [chompCr]

/-- The blank lines: empty, or a lone CR. -/
theorem chompCr_eq_nil : chompCr l = [] ↔ l = [] ∨ l = [cr] := by
  rw [chompCr]
  split
  next h =>
    obtain ⟨t, rfl⟩ := List.getLast?_eq_some_iff.1 h
    simp
  next h =>
    refine ⟨.inl, fun hl => hl.elim id fun hcr => ?_⟩
    rw [hcr] at h
    exact absurd rfl h

/-- A line with a colon behind a key without one. -/
theorem parseLine_append (hk : colon ∉ l) (v : Bytes) :
    h.parseLine (l ++ colon :: v) = h.insert (normalize l) (trim v) := by
  have hnone : l.findIdx? (· == colon) = none := by
    simp only [List.findIdx?_eq_none_iff, beq_eq_false_iff_ne]
    exact fun b hb hc => hk (hc ▸ hb)
  have hidx : (l ++ colon :: v).findIdx? (· == colon) = some l.length := by
    rw [List.findIdx?_append, hnone, List.findIdx?_cons]
    simp
  rw [parseLine, hidx]
  simp [trimInPlace_eq_trim]

/-! ### Keys and values -/

/-- A key as `operator[]` and `parse` store it. -/
structure IsKey (k : Bytes) : Prop where
  normalized : normalize k = k
  no_colon : colon ∉ k
  no_lf : lf ∉ k

/-- A value as `parse` stores it. -/
structure IsValue (v : Bytes) : Prop where
  trimmed : Trimmed v
  no_lf : lf ∉ v

/-- Headers with keys and values as `parse` stores them. -/
def Stored (h : Headers) : Prop := ∀ k v, h.lookup k = some v → IsKey k ∧ IsValue v

theorem stored_empty : Stored ∅ := fun k v hv => by simp at hv

theorem Stored.insert (hs : Stored h) {k v : Bytes} (hk : IsKey k) (hv : IsValue v) :
    Stored (Finmap.insert k v h) := by
  intro k' v' h'
  by_cases hkk : k' = k
  · subst hkk
    rw [Finmap.lookup_insert, Option.some.injEq] at h'
    exact h' ▸ ⟨hk, hv⟩
  · rw [Finmap.lookup_insert_of_ne _ hkk] at h'
    exact hs _ _ h'

end Headers

end Dss.Http
