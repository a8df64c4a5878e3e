import Mathlib.Data.List.Basic

/-!
# Sorting

`std::sort` arranges a range so that no element comes before one that compares
less, and leaves open how it arranges elements that are equivalent. A `StdSort`
is any such function for a comparator, which the standard requires to be a strict
weak order; there is one for every such comparator (`StdSort.mergeSort`).
-/

namespace Dss.Lib

variable {α : Type*}

/-- A `std::sort` with the comparator `lt`. -/
structure StdSort (lt : α → α → Bool) where
  sort : List α → List α
  perm : ∀ l, (sort l).Perm l
  sorted : ∀ l, (sort l).Pairwise fun a b => lt b a = false

namespace StdSort

variable {lt : α → α → Bool}

/-- Merge sort is a `std::sort`. -/
def mergeSort (hasymm : ∀ a b, lt a b → lt b a = false)
    (htrans : ∀ a b c, lt b a = false → lt c b = false → lt c a = false) : StdSort lt where
  sort l := l.mergeSort fun a b => !lt b a
  perm l := l.mergeSort_perm _
  sorted l := by
    have hsorted : (l.mergeSort fun a b => !lt b a).Pairwise fun a b => !lt b a :=
      List.pairwise_mergeSort (fun a b c hab hbc => by
        simpa using htrans a b c (by simpa using hab) (by simpa using hbc))
      (fun a b => by
        cases hab : lt a b with
        | false => simp
        | true => simp [hasymm a b hab]) l
    simpa using hsorted

theorem pairwise_mergeSort_rank (rank : α → ℕ) (l : List α) :
    (l.mergeSort fun a b => rank b ≤ rank a).Pairwise fun a b => rank b ≤ rank a := by
  have hsorted : (l.mergeSort fun a b => decide (rank b ≤ rank a)).Pairwise
      fun a b => decide (rank b ≤ rank a) :=
    List.pairwise_mergeSort (fun a b c hab hbc => by
      simp only [decide_eq_true_eq] at hab hbc ⊢
      omega)
    (fun a b => by
      simp only [Bool.or_eq_true, decide_eq_true_eq]
      omega) l
  simpa using hsorted

/-- Merge sort by a rank, the highest first, where what has to come before another
    element has a higher rank. -/
def byRank (rank : α → ℕ) (hrank : ∀ a b, lt a b → rank b < rank a) : StdSort lt where
  sort l := l.mergeSort fun a b => rank b ≤ rank a
  perm l := l.mergeSort_perm _
  sorted l := by
    refine (pairwise_mergeSort_rank rank l).imp fun {a b} hab => ?_
    by_contra hlt
    have hba : rank a < rank b := hrank b a (by simpa using hlt)
    omega

variable (s : StdSort lt) {l : List α} {a : α} {k : ℕ}

@[simp] theorem sort_singleton (a : α) : s.sort [a] = [a] := List.perm_singleton.1 (s.perm [a])

/-! ## The first elements -/

include s in
theorem irrefl (a : α) : lt a a = false := by
  have hsorted := s.sorted (List.replicate 2 a)
  rw [List.perm_replicate.1 (s.perm _)] at hsorted
  simpa using hsorted

/-- Of what has to come before one of the first `k` elements, there are less than
    `k`. -/
theorem countP_lt_of_mem_take (h : a ∈ (s.sort l).take k) : l.countP (lt · a) < k := by
  obtain ⟨pre, post, hsplit⟩ := List.append_of_mem h
  have hsort : s.sort l = pre ++ a :: (post ++ (s.sort l).drop k) := by
    conv_lhs => rw [← List.take_append_drop k (s.sort l), hsplit]
    simp
  have hlen : pre.length < k := by
    have := congrArg List.length hsplit
    simp only [List.length_take, List.length_append, List.length_cons] at this
    omega
  -- none of it comes after the element
  have hrest : (a :: (post ++ (s.sort l).drop k)).countP (lt · a) = 0 := by
    have hsorted := s.sorted l
    rw [hsort] at hsorted
    have hpost := (List.pairwise_cons.1 (List.pairwise_append.1 hsorted).2.1).1
    rw [List.countP_eq_zero]
    intro c hc
    rcases List.mem_cons.1 hc with rfl | hc
    · simp [s.irrefl c]
    · simp [hpost c hc]
  calc l.countP (lt · a) = pre.countP (lt · a) := by
        rw [← (s.perm l).countP_eq, hsort, List.countP_append, hrest, Nat.add_zero]
    _ ≤ pre.length := List.countP_le_length
    _ < k := hlen

variable {rank : α → ℕ} {hrank : ∀ a b, lt a b → rank b < rank a}

theorem pairwise_byRank : ((byRank rank hrank).sort l).Pairwise fun a b => rank b ≤ rank a :=
  pairwise_mergeSort_rank rank l

/-- An element is one of the first `k` if no more than `k` have its rank or a
    higher one. -/
theorem mem_take_byRank (ha : a ∈ l) (h : l.countP (rank a ≤ rank ·) ≤ k) :
    a ∈ ((byRank rank hrank).sort l).take k := by
  have hperm := (byRank rank hrank).perm l
  obtain ⟨pre, post, hsplit⟩ := List.append_of_mem (hperm.mem_iff.2 ha)
  have hsorted : ((byRank rank hrank).sort l).Pairwise fun a b => rank b ≤ rank a :=
    pairwise_byRank
  rw [hsplit] at hsorted
  -- what comes before it has no lower rank
  have hpre : pre.countP (rank a ≤ rank ·) = pre.length := by
    rw [List.countP_eq_length]
    intro c hc
    simpa using (List.pairwise_append.1 hsorted).2.2 c hc a List.mem_cons_self
  have hlen : pre.length < k := by
    rw [← hperm.countP_eq, hsplit, List.countP_append, hpre, List.countP_cons] at h
    simp only [Nat.le_refl, decide_true, if_true] at h
    omega
  rw [hsplit, List.take_append, List.take_cons (by omega)]
  simp

end StdSort

end Dss.Lib
