import Dss.Http.Common
import Dss.Utils.Normalization

/-!
# The headers of a stream

What `headers_t::parse` computes, told without its loop. Of the lines of the
stream, each without the CR at its end, those before the first empty one are the
header lines (`headerLines`); one with a colon is a field, with a key and a value
(`IsField`). The map read has the value of the last field for each key, and the
stream is left behind the first empty line (`parsesTo_parse`).
-/

namespace Dss.Http

open Dss.Lib Dss.Utils

namespace Headers

/-- The lines before the first empty one. -/
def headerLines (s : Bytes) : List Bytes := ((lines s).map chompCr).takeWhile (· ≠ [])

/-- The line has a colon; before the first one there is the key `k`, however it is
    spelled, and behind it the value `v`. -/
def IsField (line k v : Bytes) : Prop :=
  ∃ a b, line = a ++ colon :: b ∧ colon ∉ a ∧ normalize a = k ∧ trim b = v

/-- The last field for the key `k` has the value `v`. -/
def LastField (ls : List Bytes) (k v : Bytes) : Prop :=
  ∃ pre line post, ls = pre ++ line :: post ∧ IsField line k v ∧
    ∀ line' ∈ post, ∀ v', ¬IsField line' k v'

variable {h : Headers} {s k v v' line : Bytes} {ls : List Bytes}

/-! ## Fields -/

/-- A line with a colon has a key. -/
theorem isField_of_mem (h : colon ∈ line) : ∃ k v, IsField line k v := by
  obtain ⟨a, b, hline, ha⟩ := List.eq_append_cons_of_mem h
  exact ⟨_, _, a, b, hline, ha, rfl, rfl⟩

theorem parseLine_of_notMem (hline : colon ∉ line) : h.parseLine line = h := by
  have hnone : line.findIdx? (· == colon) = none := by
    simp only [List.findIdx?_eq_none_iff, beq_eq_false_iff_ne]
    exact fun b hb hc => hline (hc ▸ hb)
  rw [parseLine, hnone]

theorem IsField.parseLine (hf : IsField line k v) : h.parseLine line = h.insert k v := by
  obtain ⟨a, b, rfl, ha, rfl, rfl⟩ := hf
  exact parseLine_append ha b

/-- A line has one key and one value. -/
theorem IsField.unique {k' : Bytes} (hf : IsField line k v) (hf' : IsField line k' v') :
    k = k' ∧ v = v' := by
  have heq : Finmap.insert k v (∅ : Headers) = Finmap.insert k' v' ∅ :=
    hf.parseLine.symm.trans hf'.parseLine
  have hlookup := congrArg (Finmap.lookup k) heq
  rw [Finmap.lookup_insert] at hlookup
  by_cases hk : k = k'
  · subst hk
    rw [Finmap.lookup_insert, Option.some.injEq] at hlookup
    exact ⟨rfl, hlookup⟩
  · rw [Finmap.lookup_insert_of_ne _ hk, Finmap.lookup_empty] at hlookup
    cases hlookup

/-- What is found after a line is its value, or what was found before. -/
theorem lookup_parseLine : (h.parseLine line).lookup k = some v ↔
    IsField line k v ∨ (∀ v', ¬IsField line k v') ∧ h.lookup k = some v := by
  by_cases hcolon : colon ∈ line
  · obtain ⟨k', v', hf⟩ := isField_of_mem hcolon
    rw [hf.parseLine]
    by_cases hk : k = k'
    · subst hk
      rw [Finmap.lookup_insert, Option.some.injEq]
      constructor
      · rintro rfl
        exact .inl hf
      · rintro (hf' | ⟨hnone, -⟩)
        · exact (hf.unique hf').2
        · exact absurd hf (hnone v')
    · rw [Finmap.lookup_insert_of_ne _ hk]
      have hnone : ∀ w, ¬IsField line k w := fun w hf' => hk (hf'.unique hf).1
      simp [hnone]
  · have hnone : ∀ w, ¬IsField line k w := by
      rintro w ⟨a, b, rfl, -⟩
      exact hcolon (by simp)
    rw [parseLine_of_notMem hcolon]
    simp [hnone]

/-- The last field of lines is that of the last line, or of those before. -/
theorem lastField_concat : LastField (ls ++ [line]) k v ↔
    IsField line k v ∨ (∀ v', ¬IsField line k v') ∧ LastField ls k v := by
  constructor
  · rintro ⟨pre, line', post, heq, hf, hpost⟩
    rcases List.eq_nil_or_concat post with rfl | ⟨post, last, rfl⟩
    · obtain ⟨-, hlast⟩ := List.append_inj' heq rfl
      exact .inl (List.singleton_inj.1 hlast ▸ hf)
    · rw [List.concat_eq_append] at heq hpost
      rw [← List.cons_append, ← List.append_assoc] at heq
      obtain ⟨rfl, hlast⟩ := List.append_inj' heq rfl
      obtain rfl := List.singleton_inj.1 hlast
      exact .inr ⟨hpost line (by simp), pre, line', post, rfl, hf,
        fun l hl => hpost l (List.mem_append_left _ hl)⟩
  · rintro (hf | ⟨hnone, pre, line', post, rfl, hf, hpost⟩)
    · exact ⟨ls, line, [], rfl, hf, by simp⟩
    · refine ⟨pre, line', post ++ [line], by simp, hf, fun l hl => ?_⟩
      rcases List.mem_append.1 hl with hl | hl
      · exact hpost l hl
      · exact List.mem_singleton.1 hl ▸ hnone

/-- What is found after the lines is the value of the last field, or what was found
    before. -/
theorem lookup_foldl : (ls.foldl parseLine h).lookup k = some v ↔
    LastField ls k v ∨ (∀ line ∈ ls, ∀ v', ¬IsField line k v') ∧ h.lookup k = some v := by
  induction ls using List.reverseRecOn with
  | nil => simp [LastField]
  | append_singleton ls line ih =>
    rw [List.foldl_append, List.foldl_cons, List.foldl_nil, lookup_parseLine, ih,
      lastField_concat]
    simp only [List.mem_append, List.mem_singleton, or_imp, forall_and, forall_eq]
    tauto

/-- A key has a last field exactly if it has a field. -/
theorem exists_lastField : (∃ v, LastField ls k v) ↔ ∃ line ∈ ls, ∃ v, IsField line k v := by
  induction ls using List.reverseRecOn with
  | nil => simp [LastField]
  | append_singleton ls line ih =>
    simp only [lastField_concat, exists_or, exists_and_left, ih, List.mem_append,
      List.mem_singleton, or_and_right, exists_eq_left]
    by_cases hf : ∃ v, IsField line k v
    · simp [hf]
    · simp [not_exists.1 hf]

/-! ## The loop -/

theorem headerLines_of_getline {rest : Bytes} (hline : getline s = some (line, rest)) :
    headerLines s = if chompCr line = [] then [] else chompCr line :: headerLines rest := by
  rw [headerLines, lines_of_getline hline, List.map_cons, List.takeWhile_cons]
  split <;> simp_all [headerLines]

/-- The loop works on the header lines, one after the other. -/
theorem parseFrom_fst (h : Headers) (s : Bytes) :
    (parseFrom h s).1 = (headerLines s).foldl parseLine h := by
  induction hn : s.length using Nat.strongRecOn generalizing h s with
  | ind n ih =>
    rw [parseFrom_eq]
    cases hline : getline s with
    | none =>
      obtain rfl := getline_eq_none.1 hline
      rfl
    | some p =>
      obtain ⟨line, rest⟩ := p
      have hlt := length_of_getline hline
      rw [headerLines_of_getline hline]
      simp only
      split
      · rfl
      · rw [List.foldl_cons]
        exact ih rest.length (by omega) _ _ rfl

/-- It reads as many lines of the stream, and the empty one behind them. -/
theorem parseFrom_snd (h : Headers) (s : Bytes) :
    ∃ read, s = read ++ (parseFrom h s).2 ∧
      lines read = (lines s).take ((headerLines s).length + 1) ∧
      lines (parseFrom h s).2 = (lines s).drop ((headerLines s).length + 1) := by
  induction hn : s.length using Nat.strongRecOn generalizing h s with
  | ind n ih =>
    rw [parseFrom_eq]
    cases hline : getline s with
    | none =>
      obtain rfl := getline_eq_none.1 hline
      exact ⟨[], rfl, rfl, rfl⟩
    | some p =>
      obtain ⟨line, rest⟩ := p
      have hlt := length_of_getline hline
      rw [headerLines_of_getline hline, lines_of_getline hline]
      simp only
      obtain ⟨hl, hs⟩ := getline_eq_some hline
      split
      next hblank =>
        rcases hs with rfl | ⟨rfl, rfl, hne⟩
        · exact ⟨line ++ [lf], by simp, by simpa using lines_append hl [], rfl⟩
        · exact ⟨s, by simp, lines_of_notMem hl hne, rfl⟩
      next =>
        obtain ⟨read, hread, htake, hdrop⟩ :=
          ih rest.length (by omega) (h.parseLine (chompCr line)) rest rfl
        rw [List.length_cons, List.take_succ_cons, List.drop_succ_cons]
        rcases hs with rfl | ⟨rfl, rfl, hne⟩
        · refine ⟨line ++ lf :: read, ?_, ?_, hdrop⟩
          · conv_lhs => rw [hread]
            simp
          · rw [lines_append hl, htake]
        · exact ⟨s, by simp [parseFrom, parseLoop], lines_of_notMem hl hne, rfl⟩

/-! ## The headers read -/

/-- What `headers_t::parse` should make of the stream `s`: the headers `h`, with
    `rest` left to read. -/
structure ParsesTo (s : Bytes) (h : Headers) (rest : Bytes) : Prop where
  key : ∀ k, k ∈ h ↔ ∃ line ∈ headerLines s, ∃ v, IsField line k v
  value : ∀ k v, h.lookup k = some v ↔ LastField (headerLines s) k v
  /-- All lines up to the first empty one are read. -/
  stop : ∃ read, s = read ++ rest ∧
    lines read = (lines s).take ((headerLines s).length + 1) ∧
    lines rest = (lines s).drop ((headerLines s).length + 1)
  find : ∀ k v, h.find k = some v ↔ LastField (headerLines s) (normalize k) v
  /-- Both overloads of `find` ignore the case of ASCII letters and surrounding
      whitespace. -/
  spelling : ∀ a b k k', Blank a → Blank b → EqIgnoringCase k' k →
    h.find (a ++ (k' ++ b)) = h.find k ∧ h.findMove (a ++ (k' ++ b)) = h.find k

theorem lookup_parse : (parse s).1.lookup k = some v ↔ LastField (headerLines s) k v := by
  rw [parse, parseFrom_fst, lookup_foldl]
  simp

/-- The headers are read as they should be, from every stream. -/
theorem parsesTo_parse (s : Bytes) : ParsesTo s (parse s).1 (parse s).2 where
  key k := by
    rw [← exists_lastField, Finmap.mem_iff]
    exact exists_congr fun v => lookup_parse
  value _ _ := lookup_parse
  stop := parseFrom_snd ∅ s
  find _ _ := lookup_parse
  spelling a b k k' ha hb hk := by
    rw [findMove_eq, Headers.find, Headers.find, normalize_eq ha hb (toLower_eq_iff.2 hk)]
    exact ⟨rfl, rfl⟩

end Headers

end Dss.Http
