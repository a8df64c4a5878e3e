import Mathlib.Data.List.TakeWhile
import Mathlib.Tactic.Common

/-!
# Byte streams

The input functions of the C++ standard library on a stream that is a list of
bytes: `getline`, and the extraction of a whitespace-delimited word
(`extractWord`). Each returns what it extracts together with the rest of the
stream, and `none` where the source sets `failbit`.
-/

namespace Dss.Lib

abbrev Byte := UInt8
abbrev Bytes := List Byte

/-- Decided along the list, not over all bytes. -/
instance (s : Bytes) (p : Byte → Prop) [DecidablePred p] : Decidable (∀ b ∈ s, p b) :=
  List.decidableBAll p s

/-- The bytes of an ASCII literal. -/
def ascii (s : String) : Bytes := s.toList.map Char.toUInt8

def lf : Byte := 10
def cr : Byte := 13
def slash : Byte := 47

/-- `std::isspace` in the "C" locale: blank, `\t`, `\n`, `\v`, `\f`, `\r`. -/
def isSpace (b : Byte) : Bool := b ∈ ([32, 9, 10, 11, 12, 13] : Bytes)

@[simp] theorem isSpace_lf : isSpace lf = true := rfl
@[simp] theorem isSpace_cr : isSpace cr = true := rfl
@[simp] theorem isSpace_blank : isSpace 32 = true := rfl
theorem cr_ne_lf : cr ≠ lf := by decide

/-- `std::getline`: the bytes up to the first LF, which is extracted and
    dropped, or up to the end; it fails where there is nothing to extract. -/
def getline : Bytes → Option (Bytes × Bytes)
  | [] => none
  | b :: s => some ((b :: s).takeWhile (· != lf), ((b :: s).dropWhile (· != lf)).tail)

/-- The lines `getline` extracts from the stream, one after the other. -/
def lines : Bytes → List Bytes
  | [] => []
  | b :: s =>
    if b = lf then [] :: lines s
    else match lines s with
      | [] => [[b]]
      | l :: ls => (b :: l) :: ls

/-- `stream >> word`: whitespace is skipped, and the bytes up to the next
    whitespace extracted; it fails where there are none. -/
def extractWord (s : Bytes) : Option (Bytes × Bytes) :=
  let s := s.dropWhile isSpace
  if s = [] then none else some (s.takeWhile (!isSpace ·), s.dropWhile (!isSpace ·))

/-! ## Lines -/

variable {s l r t x y w : Bytes}

theorem getline_append (hl : lf ∉ l) (r : Bytes) : getline (l ++ lf :: r) = some (l, r) := by
  have hall : ∀ b ∈ l, (b != lf) = true := fun b hb => by
    simpa using fun h : b = lf => hl (h ▸ hb)
  have hcons : getline (l ++ lf :: r) = some ((l ++ lf :: r).takeWhile (· != lf),
      ((l ++ lf :: r).dropWhile (· != lf)).tail) := by
    cases l <;> rfl
  rw [hcons, List.takeWhile_append_of_pos hall, List.dropWhile_append_of_pos hall]
  simp

/-- What a line extracted was: either the bytes before the first LF, or all of
    a stream without one. -/
theorem getline_eq_some (h : getline s = some (l, r)) :
    lf ∉ l ∧ (s = l ++ lf :: r ∨ s = l ∧ r = [] ∧ l ≠ []) := by
  cases s with
  | nil => cases h
  | cons b s =>
    simp only [getline, Option.some.injEq, Prod.mk.injEq] at h
    obtain ⟨rfl, rfl⟩ := h
    refine ⟨fun hmem => by simpa using List.mem_takeWhile_imp hmem, ?_⟩
    have hsplit := List.takeWhile_append_dropWhile (p := (· != lf)) (l := b :: s)
    cases hd : (b :: s).dropWhile (· != lf) with
    | nil =>
      rw [hd, List.append_nil] at hsplit
      exact .inr ⟨hsplit.symm, rfl, by simp [hsplit]⟩
    | cons c d =>
      have hc : c = lf := by
        have := List.head_dropWhile_not (· != lf) (l := b :: s) (by simp [hd])
        simpa [hd] using this
      rw [hd, hc] at hsplit
      exact .inl (by simpa using hsplit.symm)

theorem getline_eq_none : getline s = none ↔ s = [] := by
  cases s <;> simp [getline]

/-- Every line extracted shortens the stream. -/
theorem length_of_getline (h : getline s = some (l, r)) : r.length < s.length := by
  obtain ⟨_, rfl | ⟨rfl, rfl, hne⟩⟩ := getline_eq_some h
  · simp
    omega
  · exact List.length_pos_iff.2 hne

/-- A line ended by an LF is extracted alike when more bytes follow. -/
theorem getline_append_of_lf (h : getline (l ++ lf :: r) = some (w, y)) (t : Bytes) :
    getline (l ++ lf :: r ++ t) = some (w, y ++ t) := by
  obtain ⟨hw, hs | ⟨hs, _, _⟩⟩ := getline_eq_some h
  · rw [hs, List.append_assoc, List.cons_append]
    exact getline_append hw _
  · exact absurd (by simp [← hs]) hw

/-- The first LF is at or before any other one: what lies behind the other one
    is left to read after the first line. -/
theorem suffix_of_line (hl : lf ∉ l) (h : l ++ lf :: r = x ++ lf :: y) :
    ∃ z, lf :: r = z ++ lf :: y := by
  rcases List.append_eq_append_iff.1 h with ⟨z, _, hz⟩ | ⟨z, hz, hz'⟩
  · exact ⟨z, hz⟩
  · cases z with
    | nil => exact ⟨[], by simpa using hz'.symm⟩
    | cons b z =>
      rw [List.cons_append, List.cons.injEq] at hz'
      exact absurd (by simp [hz, ← hz'.1]) hl

@[simp] theorem lines_nil : lines [] = [] := rfl

theorem lines_append (hl : lf ∉ l) (r : Bytes) : lines (l ++ lf :: r) = l :: lines r := by
  induction l with
  | nil => simp [lines]
  | cons b l ih =>
    obtain ⟨hb, hl⟩ := not_or.1 (mt List.mem_cons.2 hl)
    rw [List.cons_append, lines, if_neg (Ne.symm hb), ih hl]

theorem lines_of_notMem (hl : lf ∉ l) (hne : l ≠ []) : lines l = [l] := by
  induction l with
  | nil => exact absurd rfl hne
  | cons b l ih =>
    obtain ⟨hb, hl⟩ := not_or.1 (mt List.mem_cons.2 hl)
    rw [lines, if_neg (Ne.symm hb)]
    cases l with
    | nil => rfl
    | cons c l => rw [ih hl (List.cons_ne_nil _ _)]

/-- A line extracted is the first one. -/
theorem lines_of_getline (h : getline s = some (l, r)) : lines s = l :: lines r := by
  obtain ⟨hl, rfl | ⟨rfl, rfl, hne⟩⟩ := getline_eq_some h
  · exact lines_append hl r
  · exact lines_of_notMem hl hne

/-! ## Words -/

/-- A word: not empty, and free of whitespace. -/
structure IsWord (w : Bytes) : Prop where
  ne_nil : w ≠ []
  no_space : ∀ b ∈ w, isSpace b = false

theorem IsWord.lf_not_mem (h : IsWord w) : lf ∉ w := fun hm =>
  absurd (h.no_space _ hm) (by simp)

/-- What is extracted is a word. -/
theorem isWord_of_extractWord (h : extractWord s = some (w, r)) : IsWord w := by
  simp only [extractWord] at h
  split at h
  · cases h
  next hne =>
    simp only [Option.some.injEq, Prod.mk.injEq] at h
    obtain ⟨rfl, rfl⟩ := h
    refine ⟨?_, fun b hb => by simpa using List.mem_takeWhile_imp hb⟩
    cases hd : s.dropWhile isSpace with
    | nil => exact absurd hd hne
    | cons c d =>
      have hc : isSpace c = false := by
        simpa [hd] using List.head_dropWhile_not isSpace hne
      simp [hc]

/-- A word is extracted from behind whitespace, up to the next whitespace. -/
theorem extractWord_append (hx : ∀ b ∈ x, isSpace b = true) (hw : IsWord w)
    (hr : ∀ b ∈ r.head?, isSpace b = true) : extractWord (x ++ (w ++ r)) = some (w, r) := by
  have hdrop : (x ++ (w ++ r)).dropWhile isSpace = w ++ r := by
    rw [List.dropWhile_append_of_pos hx]
    cases w with
    | nil => exact absurd rfl hw.ne_nil
    | cons b w => simp [hw.no_space b (by simp)]
  have hpos : ∀ b ∈ w, (!isSpace b) = true := fun b hb => by simp [hw.no_space b hb]
  have hne : w ++ r ≠ [] := by simp [hw.ne_nil]
  simp only [extractWord, hdrop, if_neg hne, List.takeWhile_append_of_pos hpos,
    List.dropWhile_append_of_pos hpos]
  cases r with
  | nil => simp
  | cons b r => simp [hr b (by simp)]

end Dss.Lib
