import Mathlib.Data.List.Basic
import Mathlib.Order.Lattice
import Mathlib.Tactic.Push

/-!
# Searching a list for a pattern

`search p s` is the position of the first occurrence of the pattern `p` in `s`,
as `std::search` gives it. A found position splits the list around the
occurrence (`search_eq_some_iff`), and appending to the list does not change it
(`search_append`).
-/

namespace Dss.Lib

variable {α : Type*} [DecidableEq α] {p s t a b : List α} {i : ℕ}

/-- The position of the first occurrence of `p` in `s`. -/
def search (p : List α) : List α → Option ℕ
  | [] => if p = [] then some 0 else none
  | x :: s => if p <+: x :: s then some 0 else (search p s).map (· + 1)

/-- Where the pattern is not at the head, the search goes on behind it. -/
theorem search_cons_of_not {x : α} (h : ¬p <+: x :: s) :
    search p (x :: s) = (search p s).map (· + 1) := by
  rw [search, if_neg h]

/-- A pattern at the head is found there. -/
theorem search_of_isPrefix (h : p <+: s) : search p s = some 0 := by
  cases s with
  | nil => rw [search, if_pos (List.prefix_nil.1 h)]
  | cons x s => rw [search, if_pos h]

/-- A position found is that of an occurrence. -/
theorem search_eq_some (h : search p s = some i) : ∃ a b, s = a ++ p ++ b ∧ a.length = i := by
  induction s generalizing i with
  | nil =>
    rw [search] at h
    split at h
    next hp => exact ⟨[], [], by simp [hp], by simpa using h⟩
    next => cases h
  | cons x s ih =>
    by_cases hp : p <+: x :: s
    · rw [search_of_isPrefix hp, Option.some.injEq] at h
      obtain ⟨b, hb⟩ := hp
      exact ⟨[], b, by simp [hb], by simpa using h⟩
    · rw [search_cons_of_not hp, Option.map_eq_some_iff] at h
      obtain ⟨j, hj, rfl⟩ := h
      obtain ⟨a, b, hs, ha⟩ := ih hj
      exact ⟨x :: a, b, by simp [hs], by simp [ha]⟩

/-- An occurrence is found, there or earlier. -/
theorem search_le (p a b : List α) : ∃ i ≤ a.length, search p (a ++ p ++ b) = some i := by
  induction a with
  | nil => exact ⟨0, le_rfl, search_of_isPrefix (by simp)⟩
  | cons x a ih =>
    obtain ⟨i, hi, hs⟩ := ih
    by_cases hp : p <+: x :: (a ++ p ++ b)
    · exact ⟨0, by simp, search_of_isPrefix hp⟩
    · refine ⟨i + 1, by simpa using hi, ?_⟩
      rw [List.cons_append, List.cons_append, search_cons_of_not hp, hs, Option.map_some]

/-- Nothing is found exactly where there is no occurrence. -/
theorem search_eq_none_iff : search p s = none ↔ ¬∃ a b, s = a ++ p ++ b := by
  constructor
  · rintro h ⟨a, b, rfl⟩
    obtain ⟨i, _, hi⟩ := search_le p a b
    rw [hi] at h
    cases h
  · intro h
    cases hs : search p s with
    | none => rfl
    | some i =>
      obtain ⟨a, b, hab, _⟩ := search_eq_some hs
      exact absurd ⟨a, b, hab⟩ h

/-- The position found is that of the first occurrence. -/
theorem search_eq_some_iff : search p s = some i ↔
    (∃ a b, s = a ++ p ++ b ∧ a.length = i) ∧ ∀ a b, s = a ++ p ++ b → i ≤ a.length := by
  constructor
  · refine fun h => ⟨search_eq_some h, fun a b hs => ?_⟩
    obtain ⟨j, hj, hj'⟩ := search_le p a b
    rw [← hs, h, Option.some.injEq] at hj'
    exact hj' ▸ hj
  · rintro ⟨⟨a, b, hs, rfl⟩, hmin⟩
    obtain ⟨j, hj, hj'⟩ := search_le p a b
    rw [← hs] at hj'
    obtain ⟨a', b', hs', rfl⟩ := search_eq_some hj'
    rw [hj', le_antisymm hj (hmin a' b' hs')]

/-- Appending to a list keeps the first occurrence found in it. -/
theorem search_append (h : search p s = some i) (t : List α) : search p (s ++ t) = some i := by
  obtain ⟨⟨a, b, rfl, rfl⟩, hmin⟩ := search_eq_some_iff.1 h
  refine search_eq_some_iff.2 ⟨⟨a, b ++ t, by simp, rfl⟩, fun a' b' hab => ?_⟩
  by_contra hlt
  push Not at hlt
  -- an earlier occurrence would end before `b`, and so lie in `s` already
  have hle : (a' ++ p).length ≤ (a ++ p ++ b).length := by
    simp only [List.length_append]
    omega
  obtain ⟨c, hc⟩ : a' ++ p <+: a ++ p ++ b :=
    List.prefix_of_prefix_length_le ⟨b', hab.symm⟩ ⟨t, rfl⟩ hle
  exact absurd (hmin a' c hc.symm) (not_le.2 hlt)

end Dss.Lib
