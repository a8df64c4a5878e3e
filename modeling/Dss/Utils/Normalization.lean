import Dss.Utils.Strings
import Mathlib.Data.List.Forall2

/-!
# What is normalized

What the string functions of `utils` return, told from the string itself:

* `trim` gives the longest part of it that is trimmed: every other one is inside it
  (`infix_trim`);
* `normalize` gives two strings the same result exactly if their trimmed parts are
  equal, ignoring the case of ASCII letters (`normalize_eq_iff`), and one without
  letters in upper case (`not_isUpper_of_mem_normalize`).
-/

namespace Dss.Utils

open Dss.Lib

/-- An ASCII letter in upper case. -/
def IsUpper (b : Byte) : Prop := 65 ≤ b ∧ b ≤ 90

/-- The same byte, but for the case of an ASCII letter. -/
def SameButCase (b c : Byte) : Prop :=
  b = c ∨ (IsUpper b ∧ c = b + 32) ∨ (IsUpper c ∧ b = c + 32)

/-- Equal, ignoring the case of ASCII letters. -/
def EqIgnoringCase (s t : Bytes) : Prop := List.Forall₂ SameButCase s t

variable {s t : Bytes} {b c : Byte}

/-! ## The trimmed part -/

theorem Trimmed.around {x t y : Bytes} (hx : ∀ c ∈ x.head?, isSpace c = false) (ht : Trimmed t)
    (hne : t ≠ []) (hy : ∀ c ∈ y.getLast?, isSpace c = false) : Trimmed (x ++ t ++ y) where
  head c hc := by
    rw [List.append_assoc, List.head?_append, Option.mem_def, Option.or_eq_some_iff,
      List.head?_append, Option.or_eq_some_iff] at hc
    rcases hc with hc | ⟨-, hc | ⟨hnil, -⟩⟩
    · exact hx c hc
    · exact ht.head c hc
    · exact absurd (List.head?_eq_none_iff.1 hnil) hne
  last c hc := by
    rw [List.getLast?_append, Option.mem_def, Option.or_eq_some_iff, List.getLast?_append,
      Option.or_eq_some_iff] at hc
    rcases hc with hc | ⟨-, hc | ⟨hnil, -⟩⟩
    · exact hy c hc
    · exact ht.last c hc
    · exact absurd (List.getLast?_eq_none_iff.1 hnil) hne

/-- Every trimmed part of a string is inside the one that `trim` returns. -/
theorem infix_trim (h : t <:+: s) (ht : Trimmed t) : t <:+: trim s := by
  by_cases hne : t = []
  · exact hne ▸ ⟨[], trim s, rfl⟩
  obtain ⟨x, y, rfl⟩ := h
  -- what is around it, without whitespace at the ends, is trimmed with it
  obtain ⟨a, x, rfl, ha, hx⟩ := exists_blank_append x
  obtain ⟨y, b, rfl, hb, hy⟩ := exists_append_blank y
  have htrim := trim_append ha hb (ht.around hx hne hy)
  simp only [List.append_assoc] at htrim ⊢
  rw [htrim]
  exact ⟨x, y, by simp⟩

theorem trim_blank (h : Blank s) : trim s = [] := by
  rw [trim, findFirstNotOf_blank h]

/-! ## Case -/

theorem not_isUpper_lower (b : Byte) : ¬IsUpper (lower b) :=
  (by decide +kernel : ∀ v : BitVec 8, ¬(65 ≤ lower ⟨v⟩ ∧ lower ⟨v⟩ ≤ 90)) b.toBitVec

theorem not_isUpper_add (hb : IsUpper b) : ¬IsUpper (b + 32) := by
  have h := not_isUpper_lower b
  rw [IsUpper] at hb
  rwa [lower, if_pos hb] at h

theorem lower_eq_lower_iff : lower b = lower c ↔ SameButCase b c := by
  rw [lower, lower, SameButCase]
  split_ifs with hb hc hc
  · rw [UInt8.add_left_inj]
    refine ⟨.inl, ?_⟩
    rintro (h | ⟨-, rfl⟩ | ⟨-, rfl⟩)
    · exact h
    · exact absurd hc (not_isUpper_add hb)
    · exact absurd hb (not_isUpper_add hc)
  · refine ⟨fun h => .inr (.inl ⟨hb, h.symm⟩), ?_⟩
    rintro (rfl | ⟨-, h⟩ | ⟨hc', -⟩)
    · exact absurd hb hc
    · exact h.symm
    · exact absurd hc' hc
  · refine ⟨fun h => .inr (.inr ⟨hc, h⟩), ?_⟩
    rintro (rfl | ⟨hb', -⟩ | ⟨-, h⟩)
    · exact absurd hc hb
    · exact absurd hb' hb
    · exact h
  · refine ⟨.inl, ?_⟩
    rintro (h | ⟨hb', -⟩ | ⟨hc', -⟩)
    · exact h
    · exact absurd hb' hb
    · exact absurd hc' hc

theorem toLower_eq_iff : toLower s = toLower t ↔ EqIgnoringCase s t := by
  rw [EqIgnoringCase, toLower, toLower, ← List.forall₂_eq_eq_eq, List.forall₂_map_left_iff,
    List.forall₂_map_right_iff]
  simp only [lower_eq_lower_iff]

/-- Two strings are normalized to the same exactly if their trimmed parts are equal,
    ignoring case. -/
theorem normalize_eq_iff : normalize s = normalize t ↔ EqIgnoringCase (trim s) (trim t) := by
  rw [normalize, normalize, toLower_eq_iff]

theorem not_isUpper_of_mem_normalize (h : b ∈ normalize s) : ¬IsUpper b := by
  obtain ⟨c, -, rfl⟩ := List.mem_map.1 h
  exact not_isUpper_lower c

end Dss.Utils
