import Dss.Lib.Stream

/-!
# Strings

The string functions of `utils`. The source has each of them twice: a copying
one for `const std::string &`, and one that modifies a `std::string &` in
place, and overload resolution picks one or the other. Both are modelled
(`trim` and `trimInPlace`, `normalize` and `normalizeInPlace`), and agree
(`trimInPlace_eq_trim`, `normalizeInPlace_eq_normalize`).

A string is its trimmed part between two strings of whitespace
(`exists_eq_append_trim`), and `trim` gives the trimmed part wherever one is
seen (`trim_append`).
-/

namespace Dss.Utils

open Dss.Lib

def whitespaces : Bytes := ascii " \t\n\r\x0c\x0b"

/-- `find_first_not_of(whitespaces)`. -/
def findFirstNotOf (s : Bytes) : Option ℕ := s.findIdx? (· ∉ whitespaces)

/-- `find_last_not_of(whitespaces)`. -/
def findLastNotOf (s : Bytes) : Option ℕ :=
  (s.reverse.findIdx? (· ∉ whitespaces)).map (s.length - 1 - ·)

/-- `std::string trim(const std::string &)`. -/
def trim (s : Bytes) : Bytes :=
  match findFirstNotOf s, findLastNotOf s with
  | some start, some stop => (s.drop start).take (stop - start + 1)
  | _, _ => []

/-- `std::string &trim(std::string &)`: the end is looked for in what the first
    `erase` leaves. -/
def trimInPlace (s : Bytes) : Bytes :=
  let s := s.drop ((findFirstNotOf s).getD s.length)
  match findLastNotOf s with
  | some stop => s.take (stop + 1)
  | none => s

/-- `std::tolower` in the "C" locale. -/
def lower (b : Byte) : Byte := if 65 ≤ b ∧ b ≤ 90 then b + 32 else b

/-- `to_lower`, whose two overloads transform the same bytes. -/
def toLower (s : Bytes) : Bytes := s.map lower

def normalize (s : Bytes) : Bytes := toLower (trim s)

def normalizeInPlace (s : Bytes) : Bytes := toLower (trimInPlace s)

/-! ## Trimming -/

/-- Neither the first nor the last byte is whitespace. -/
structure Trimmed (s : Bytes) : Prop where
  head : ∀ b ∈ s.head?, isSpace b = false
  last : ∀ b ∈ s.getLast?, isSpace b = false

/-- All bytes are whitespace. -/
abbrev Blank (s : Bytes) : Prop := ∀ b ∈ s, isSpace b = true

variable {a b s t : Bytes}

theorem mem_whitespaces (c : Byte) : c ∈ whitespaces ↔ isSpace c = true := by
  simp only [isSpace, decide_eq_true_eq, show whitespaces = [32, 9, 10, 13, 12, 11] from rfl]
  simp only [List.mem_cons, List.not_mem_nil, or_false]
  tauto

theorem Blank.append (ha : Blank a) (hb : Blank b) : Blank (a ++ b) := fun c hc =>
  (List.mem_append.1 hc).elim (ha c) (hb c)

/-- A word is trimmed. -/
theorem Trimmed.of_no_space (h : ∀ b ∈ s, isSpace b = false) : Trimmed s :=
  ⟨fun _ hb => h _ (List.mem_of_head? hb), fun _ hb => h _ (List.mem_of_getLast? hb)⟩

theorem findFirstNotOf_append (ha : Blank a) (ht : ∀ c ∈ t.head?, isSpace c = false)
    (hne : t ≠ []) : findFirstNotOf (a ++ t) = some a.length := by
  have hnone : a.findIdx? (· ∉ whitespaces) = none := by
    simpa [List.findIdx?_eq_none_iff, mem_whitespaces] using ha
  obtain ⟨c, t, rfl⟩ := List.exists_cons_of_ne_nil hne
  rw [findFirstNotOf, List.findIdx?_append, hnone, List.findIdx?_cons]
  simp [mem_whitespaces, ht c (by simp)]

theorem findLastNotOf_append (hb : Blank b) (ht : ∀ c ∈ t.getLast?, isSpace c = false)
    (hne : t ≠ []) : findLastNotOf (t ++ b) = some (t.length - 1) := by
  have h := findFirstNotOf_append (a := b.reverse) (t := t.reverse)
    (fun c hc => hb c (List.mem_reverse.1 hc)) (by simpa using ht) (by simpa using hne)
  rw [findFirstNotOf, ← List.reverse_append] at h
  rw [findLastNotOf, h, Option.map_some, List.length_append, List.length_reverse]
  congr 1
  omega

theorem findFirstNotOf_blank (h : Blank s) : findFirstNotOf s = none := by
  simpa [findFirstNotOf, List.findIdx?_eq_none_iff, mem_whitespaces] using h

/-- The trimmed part of a string is what lies between whitespace. -/
theorem trim_append (ha : Blank a) (hb : Blank b) (ht : Trimmed t) :
    trim (a ++ (t ++ b)) = t := by
  by_cases hne : t = []
  · subst hne
    rw [List.nil_append, trim, findFirstNotOf_blank (ha.append hb)]
  · have hfirst : findFirstNotOf (a ++ (t ++ b)) = some a.length := by
      refine findFirstNotOf_append ha (fun c hc => ht.head c ?_) (by simp [hne])
      obtain ⟨d, t, rfl⟩ := List.exists_cons_of_ne_nil hne
      exact hc
    have hlast : findLastNotOf (a ++ (t ++ b)) = some ((a ++ t).length - 1) := by
      rw [← List.append_assoc]
      refine findLastNotOf_append hb (fun c hc => ht.last c ?_) (by simp [hne])
      obtain ⟨d, hd⟩ := Option.ne_none_iff_exists'.1 (mt List.getLast?_eq_none_iff.1 hne)
      rw [List.getLast?_append, hd] at hc
      rwa [hd]
    have hpos := List.length_pos_iff.2 hne
    rw [trim, hfirst, hlast]
    simp only [List.drop_left]
    rw [show (a ++ t).length - 1 - a.length + 1 = t.length by simp; omega, List.take_left]

/-- So it is for the overload in place. -/
theorem trimInPlace_append (ha : Blank a) (hb : Blank b) (ht : Trimmed t) :
    trimInPlace (a ++ (t ++ b)) = t := by
  by_cases hne : t = []
  · subst hne
    rw [List.nil_append, trimInPlace, findFirstNotOf_blank (ha.append hb), Option.getD_none,
      List.drop_length]
    rfl
  · have hfirst : findFirstNotOf (a ++ (t ++ b)) = some a.length := by
      refine findFirstNotOf_append ha (fun c hc => ht.head c ?_) (by simp [hne])
      obtain ⟨d, t, rfl⟩ := List.exists_cons_of_ne_nil hne
      exact hc
    have hpos := List.length_pos_iff.2 hne
    simp only [trimInPlace, hfirst, Option.getD_some, List.drop_left,
      findLastNotOf_append hb ht.last hne]
    rw [Nat.sub_add_cancel hpos, List.take_left]

/-- What is left of a string without the whitespace in front. -/
theorem exists_blank_append (s : Bytes) :
    ∃ a u, s = a ++ u ∧ Blank a ∧ ∀ c ∈ u.head?, isSpace c = false := by
  refine ⟨s.takeWhile isSpace, s.dropWhile isSpace, List.takeWhile_append_dropWhile.symm,
    fun c hc => List.mem_takeWhile_imp hc, fun c hc => ?_⟩
  have h := List.head?_dropWhile_not isSpace s
  rwa [Option.mem_def.1 hc] at h

/-- So it is without the whitespace at the end. -/
theorem exists_append_blank (s : Bytes) :
    ∃ u b, s = u ++ b ∧ Blank b ∧ ∀ c ∈ u.getLast?, isSpace c = false := by
  obtain ⟨b, u, hs, hb, hu⟩ := exists_blank_append s.reverse
  refine ⟨u.reverse, b.reverse, ?_, fun c hc => hb c (List.mem_reverse.1 hc), ?_⟩
  · rw [← List.reverse_append, ← hs, List.reverse_reverse]
  · rwa [List.getLast?_reverse]

/-- Every string is a trimmed one between whitespace. -/
theorem exists_trimmed (s : Bytes) :
    ∃ a t b, s = a ++ (t ++ b) ∧ Blank a ∧ Blank b ∧ Trimmed t := by
  obtain ⟨a, u, rfl, ha, hu⟩ := exists_blank_append s
  obtain ⟨t, b, rfl, hb, ht⟩ := exists_append_blank u
  refine ⟨a, t, b, rfl, ha, hb, fun c hc => hu c ?_, ht⟩
  rw [List.head?_append, Option.mem_def.1 hc, Option.some_or]
  exact rfl

/-- Every string is its trimmed part between whitespace. -/
theorem exists_eq_append_trim (s : Bytes) :
    ∃ a b, s = a ++ (trim s ++ b) ∧ Blank a ∧ Blank b ∧ Trimmed (trim s) := by
  obtain ⟨a, t, b, rfl, ha, hb, ht⟩ := exists_trimmed s
  exact ⟨a, b, by rw [trim_append ha hb ht], ha, hb, by rwa [trim_append ha hb ht]⟩

theorem trimmed_trim (s : Bytes) : Trimmed (trim s) :=
  let ⟨_, _, _, _, _, h⟩ := exists_eq_append_trim s
  h

theorem trimInPlace_eq_trim (s : Bytes) : trimInPlace s = trim s := by
  obtain ⟨a, t, b, rfl, ha, hb, ht⟩ := exists_trimmed s
  rw [trimInPlace_append ha hb ht, trim_append ha hb ht]

theorem Trimmed.trim_eq (h : Trimmed s) : trim s = s := by
  simpa using trim_append (a := []) (b := []) (fun _ h => nomatch h) (fun _ h => nomatch h) h

theorem mem_of_mem_trim {c : Byte} (h : c ∈ trim s) : c ∈ s := by
  obtain ⟨a, b, hs, _⟩ := exists_eq_append_trim s
  rw [hs]
  simp [h]

/-! ## Normalized strings -/

/-- Lower case keeps what is whitespace. -/
theorem isSpace_lower (c : Byte) : isSpace (lower c) = isSpace c :=
  (by decide +kernel : ∀ v : BitVec 8, isSpace (lower ⟨v⟩) = isSpace ⟨v⟩) c.toBitVec

theorem lower_lower (c : Byte) : lower (lower c) = lower c :=
  (by decide +kernel : ∀ v : BitVec 8, lower (lower ⟨v⟩) = lower ⟨v⟩) c.toBitVec

theorem Trimmed.toLower (h : Trimmed s) : Trimmed (toLower s) where
  head b hb := by
    rw [Utils.toLower, List.head?_map, Option.mem_def, Option.map_eq_some_iff] at hb
    obtain ⟨c, hc, rfl⟩ := hb
    rw [isSpace_lower, h.head c hc]
  last b hb := by
    rw [Utils.toLower, List.getLast?_map, Option.mem_def, Option.map_eq_some_iff] at hb
    obtain ⟨c, hc, rfl⟩ := hb
    rw [isSpace_lower, h.last c hc]

theorem normalizeInPlace_eq_normalize (s : Bytes) : normalizeInPlace s = normalize s := by
  rw [normalizeInPlace, trimInPlace_eq_trim, normalize]

/-- Trimming and lower case can be exchanged. -/
theorem trim_toLower (s : Bytes) : trim (toLower s) = toLower (trim s) := by
  obtain ⟨a, b, hs, ha, hb, ht⟩ := exists_eq_append_trim s
  have hblank : ∀ {c : Bytes}, Blank c → Blank (toLower c) := by
    intro c hc d hd
    obtain ⟨e, he, rfl⟩ := List.mem_map.1 hd
    rw [isSpace_lower, hc e he]
  have hsplit : toLower s = toLower a ++ (toLower (trim s) ++ toLower b) := by
    conv_lhs => rw [hs]
    simp [toLower]
  rw [hsplit, trim_append (hblank ha) (hblank hb) ht.toLower]

/-- Neither the case of a key nor whitespace around it is seen in its normalized
    form. -/
theorem normalize_eq (ha : Blank a) (hb : Blank b) (h : toLower t = toLower s) :
    normalize (a ++ (t ++ b)) = normalize s := by
  obtain ⟨a', b', ht, ha', hb', htrim⟩ := exists_eq_append_trim t
  have hsplit : a ++ (t ++ b) = (a ++ a') ++ (trim t ++ (b' ++ b)) := by
    conv_lhs => rw [ht]
    simp
  rw [normalize, hsplit, trim_append (ha.append ha') (hb'.append hb) htrim, ← trim_toLower, h,
    trim_toLower, normalize]

theorem trimmed_normalize (s : Bytes) : Trimmed (normalize s) := (trimmed_trim s).toLower

/-- Normalizing twice is normalizing once. -/
theorem normalize_normalize (s : Bytes) : normalize (normalize s) = normalize s := by
  rw [normalize, (trimmed_normalize s).trim_eq, normalize, toLower, toLower, List.map_map]
  exact List.map_congr_left fun c _ => lower_lower c

/-- A normalized string is in lower case. -/
theorem toLower_of_normalize (h : normalize s = s) : toLower s = s := by
  have htrim : Trimmed s := h ▸ trimmed_normalize s
  rwa [normalize, htrim.trim_eq] at h

end Dss.Utils
