import Mathlib.Data.List.Forall2
import Mathlib.Tactic.Common

/-!
# Computations that may fail

What it takes for a computation in `Except` to return a value, or to fail: for a
sequence of two (`bind_eq_ok`, `bind_eq_error`), and for one on each element of a list
(`mapM_eq_ok`, `mapM_eq_error`), which fails at the first element it fails for.
-/

namespace Dss.Lib

variable {ε α β γ : Type} {x : Except ε α} {f : α → Except ε β} {g : α → β} {e : ε} {b : β}
  {as : List α} {bs : List β}

theorem bind_eq_ok : x >>= f = .ok b ↔ ∃ a, x = .ok a ∧ f a = .ok b := by
  cases x <;> simp [bind, Except.bind]

theorem bind_eq_error : x >>= f = .error e ↔ x = .error e ∨ ∃ a, x = .ok a ∧ f a = .error e := by
  cases x <;> simp [bind, Except.bind]

theorem map_eq_ok : g <$> x = .ok b ↔ ∃ a, x = .ok a ∧ g a = b := by
  cases x <;> simp [Functor.map, Except.map]

theorem map_eq_error : g <$> x = .error e ↔ x = .error e := by
  cases x <;> simp [Functor.map, Except.map]

section

variable {R : α → β → Prop}

theorem exists_mem_of_forall₂ (h : List.Forall₂ R as bs) {a : α} (ha : a ∈ as) :
    ∃ b ∈ bs, R a b := by
  induction h with
  | nil => cases ha
  | cons hab _ ih =>
    rcases List.mem_cons.1 ha with rfl | ha
    · exact ⟨_, List.mem_cons_self, hab⟩
    · obtain ⟨b, hb, hab⟩ := ih ha
      exact ⟨b, List.mem_cons_of_mem _ hb, hab⟩

theorem exists_forall₂ : (∃ bs, List.Forall₂ R as bs) ↔ ∀ a ∈ as, ∃ b, R a b := by
  constructor
  · rintro ⟨bs, h⟩ a ha
    obtain ⟨b, -, hab⟩ := exists_mem_of_forall₂ h ha
    exact ⟨b, hab⟩
  · intro h
    induction as with
    | nil => exact ⟨[], .nil⟩
    | cons a as ih =>
      obtain ⟨b, hab⟩ := h a List.mem_cons_self
      obtain ⟨bs, hbs⟩ := ih fun a ha => h a (List.mem_cons_of_mem _ ha)
      exact ⟨b :: bs, .cons hab hbs⟩

end

theorem mapM_eq_ok : as.mapM f = .ok bs ↔ List.Forall₂ (fun a b => f a = .ok b) as bs := by
  induction as generalizing bs with
  | nil => simp [pure, Except.pure, eq_comm]
  | cons a as ih =>
    rw [List.mapM_cons, bind_eq_ok, List.forall₂_cons_left_iff]
    simp only [bind_eq_ok, ih, pure, Except.pure, Except.ok.injEq]
    constructor
    · rintro ⟨b, hb, bs', hbs, rfl⟩
      exact ⟨b, bs', hb, hbs, rfl⟩
    · rintro ⟨b, bs', hb, hbs, rfl⟩
      exact ⟨b, hb, bs', hbs, rfl⟩

/-- What is computed on each element can be mapped one by one. -/
theorem map_mapM (g : β → γ) (f : α → Except ε β) (as : List α) :
    List.map g <$> as.mapM f = as.mapM fun a => g <$> f a := by
  induction as with
  | nil => rfl
  | cons a as ih =>
    simp only [List.mapM_cons, ← ih, map_bind, bind_map_left, map_pure, List.map_cons]

/-- All elements are computed exactly if each is. -/
theorem exists_mapM_eq_ok : (∃ bs, as.mapM f = .ok bs) ↔ ∀ a ∈ as, ∃ b, f a = .ok b := by
  simp only [mapM_eq_ok, exists_forall₂]

/-- The failure is that of the first element that fails. -/
theorem mapM_eq_error : as.mapM f = .error e ↔
    ∃ pre a post, as = pre ++ a :: post ∧ (∀ a' ∈ pre, ∃ b, f a' = .ok b) ∧
      f a = .error e := by
  induction as with
  | nil => simp [pure, Except.pure]
  | cons a as ih =>
    rw [List.mapM_cons, bind_eq_error]
    simp only [bind_eq_error, ih, pure, Except.pure, reduceCtorEq, and_false, exists_false,
      or_false]
    constructor
    · rintro (ha | ⟨b, hb, pre, a', post, rfl, hpre, ha'⟩)
      · exact ⟨[], a, as, rfl, by simp, ha⟩
      · exact ⟨a :: pre, a', post, rfl, List.forall_mem_cons.2 ⟨⟨b, hb⟩, hpre⟩, ha'⟩
    · rintro ⟨_ | ⟨c, pre⟩, a', post, heq, hpre, ha'⟩
      · obtain ⟨rfl, rfl⟩ := List.cons.inj heq
        exact .inl ha'
      · obtain ⟨rfl, rfl⟩ := List.cons.inj heq
        obtain ⟨⟨b, hb⟩, hpre⟩ := List.forall_mem_cons.1 hpre
        exact .inr ⟨b, hb, pre, a', post, rfl, hpre, ha'⟩

end Dss.Lib
