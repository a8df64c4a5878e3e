import Dss.Http.HeaderAccess
import Dss.Utils.Normalization

/-!
# The overloads for keys

`operator[]` and `find` of `headers_t` normalize a copy of a `const std::string &`, and
a `std::string &&` in place. The string functions in place return what the copying ones
do, so that the two overloads reach the same entry (`Headers.sameEntry`), and which one
overload resolution picks is not seen (`normalizers_agree`).
-/

namespace Dss.Http

open Dss.Lib Dss.Utils

/-- `headers[std::move(key)]` where nothing is assigned. -/
def Headers.subscriptMove (h : Headers) (key : Bytes) : Headers :=
  if normalizeInPlace key ∈ h then h else Finmap.insert (normalizeInPlace key) [] h

/-- The overloads for a key reach the same entry: `operator[]` makes the same one, and
    assigns to the same one, which `find` then finds. -/
structure Headers.SameEntry (h : Headers) (key : Bytes) : Prop where
  subscript : h.subscriptMove key = h.subscript key
  assign : ∀ value, h.assignMove key value = h.assign key value
  find : h.findMove key = h.find key
  found : ∀ value, (h.assign key value).findMove key = some value ∧
    (h.assignMove key value).find key = some value

/-- The longest part of a string that neither begins nor ends with whitespace: every
    other one is inside it. -/
structure LongestTrimmed (s t : Bytes) : Prop where
  part : t <:+: s
  trimmed : Trimmed t
  longest : ∀ u, u <:+: s → Trimmed u → u <:+: t

/-- The string functions in place return what the copying ones do, and these what they
    should. -/
structure NormalizersAgree (s : Bytes) : Prop where
  trimInPlace : trimInPlace s = trim s
  normalizeInPlace : normalizeInPlace s = Utils.normalize s
  longest : LongestTrimmed s (trim s)
  blank : Blank s → trim s = []
  idempotent : Utils.normalize (Utils.normalize s) = Utils.normalize s
  lower : ∀ b ∈ Utils.normalize s, ¬IsUpper b
  trimmed : Trimmed (Utils.normalize s)
  same : ∀ t, Utils.normalize s = Utils.normalize t ↔ EqIgnoringCase (trim s) (trim t)
  sameEntry : ∀ h : Headers, h.SameEntry s

theorem Headers.sameEntry (h : Headers) (key : Bytes) : h.SameEntry key where
  subscript := by rw [subscriptMove, normalizeInPlace_eq_normalize, Headers.subscript]
  assign value := assignMove_eq h key value
  find := findMove_eq h key
  found value := by
    rw [findMove_eq, assignMove_eq, Headers.assign, Headers.find, Finmap.lookup_insert]
    exact ⟨rfl, rfl⟩

theorem longestTrimmed_trim (s : Bytes) : LongestTrimmed s (trim s) where
  part := by
    obtain ⟨a, b, hs, -⟩ := exists_eq_append_trim s
    exact ⟨a, b, by rw [List.append_assoc, ← hs]⟩
  trimmed := trimmed_trim s
  longest _ := infix_trim

/-- The two overloads of the string functions agree on every string, and so do those of
    `operator[]` and `find` on every key. -/
theorem normalizers_agree (s : Bytes) : NormalizersAgree s where
  trimInPlace := trimInPlace_eq_trim s
  normalizeInPlace := normalizeInPlace_eq_normalize s
  longest := longestTrimmed_trim s
  blank := trim_blank
  idempotent := normalize_normalize s
  lower _ := not_isUpper_of_mem_normalize
  trimmed := trimmed_normalize s
  same _ := normalize_eq_iff
  sameEntry h := h.sameEntry s

end Dss.Http
