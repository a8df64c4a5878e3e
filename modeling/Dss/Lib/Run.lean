import Mathlib.Tactic.Common

/-!
# Runs of a step function

A machine is given by its step function `step : σ → ε → Option σ`: `none` where
the event is not enabled. A run (`Run`) is a sequence of steps, each taken where
a side condition `ok` on the state and the event holds; with `ok` always true
these are all the runs of the machine, and with a restricted `ok` the runs in
which the environment keeps to a discipline.

* `Run.invariant`: what the start satisfies and every step preserves holds in
  every state reached;
* `Run.simulate`: a machine whose steps are runs of another one has its runs
  among those of the other;
* `Run.length_add_rank_le`: a rank that every step lowers bounds the length of
  a run, and `Run.exists_maximal`: there is a run that cannot go on;
* `exec`: the run along a given list of events, computed, and `trace`: what its
  steps put out.
-/

namespace Dss.Lib

variable {σ ε : Type*}

/-- A run of `step` from `s`: the events of its steps, each taken in a state
    where `ok` allows it, and the state it reaches. -/
inductive Run (step : σ → ε → Option σ) (ok : σ → ε → Prop) (s : σ) : List ε → σ → Prop
  | nil : Run step ok s [] s
  | snoc {es : List ε} {t u : σ} {e : ε} :
      Run step ok s es t → ok t e → step t e = some u → Run step ok s (es ++ [e]) u

/-- The side condition that every step meets. -/
abbrev always : σ → ε → Prop := fun _ _ => True

/-- The state reached along a list of events, if all of them are enabled. -/
def exec (step : σ → ε → Option σ) : σ → List ε → Option σ
  | s, [] => some s
  | s, e :: es => (step s e).bind fun t => exec step t es

/-- What the steps along a list of events put out, one after the other. -/
def trace {α : Type*} (step : σ → ε → Option σ) (out : σ → ε → σ → List α) : σ → List ε → List α
  | _, [] => []
  | s, e :: es => match step s e with
    | none => []
    | some t => out s e t ++ trace step out t es

/-- No step of the machine that `ok` allows is enabled. -/
def Maximal (step : σ → ε → Option σ) (ok : σ → ε → Prop) (s : σ) : Prop :=
  ∀ e, ok s e → step s e = none

/-- A state without steps under a weaker side condition has none under a stronger
    one. -/
theorem Maximal.mono {step : σ → ε → Option σ} {ok ok' : σ → ε → Prop} {s : σ}
    (himp : ∀ s e, ok s e → ok' s e) (h : Maximal step ok' s) : Maximal step ok s :=
  fun e hok => h e (himp s e hok)

/-- Every event of the list is allowed where it happens. -/
def Allowed (step : σ → ε → Option σ) (ok : σ → ε → Prop) : σ → List ε → Prop
  | _, [] => True
  | s, e :: es => ok s e ∧ ∀ t ∈ step s e, Allowed step ok t es

instance Allowed.decidable (step : σ → ε → Option σ) (ok : σ → ε → Prop)
    [∀ s e, Decidable (ok s e)] : ∀ s es, Decidable (Allowed step ok s es)
  | _, [] => inferInstanceAs (Decidable True)
  | s, e :: es =>
    have (t : σ) := decidable step ok t es
    inferInstanceAs (Decidable (ok s e ∧ ∀ t ∈ step s e, Allowed step ok t es))

theorem exec_append {step : σ → ε → Option σ} {s t : σ} {es fs : List ε}
    (h : exec step s es = some t) : exec step s (es ++ fs) = exec step t fs := by
  induction es generalizing s with
  | nil =>
    rw [exec, Option.some.injEq] at h
    rw [h, List.nil_append]
  | cons e es ih =>
    obtain ⟨u, hu, h⟩ := Option.bind_eq_some_iff.1 h
    rw [List.cons_append, exec, hu, Option.bind_some, ih h]

namespace Run

variable {step : σ → ε → Option σ} {ok ok' : σ → ε → Prop} {s t u : σ} {es fs : List ε}

/-- One allowed step is a run. -/
theorem single {e : ε} (hok : ok s e) (h : step s e = some t) : Run step ok s [e] t :=
  .snoc .nil hok h

/-- Runs compose. -/
theorem append (h : Run step ok s es t) (h' : Run step ok t fs u) :
    Run step ok s (es ++ fs) u := by
  induction h' with
  | nil => rwa [List.append_nil]
  | snoc _ hok hstep ih =>
    rw [← List.append_assoc]
    exact .snoc ih hok hstep

/-- A weaker side condition admits more runs. -/
theorem mono (himp : ∀ s e, ok s e → ok' s e) (h : Run step ok s es t) :
    Run step ok' s es t := by
  induction h with
  | nil => exact .nil
  | snoc _ hok hstep ih => exact .snoc ih (himp _ _ hok) hstep

/-- The invariant rule: what holds at the start and is preserved by every
    allowed step holds in every state a run reaches. -/
theorem invariant {I : σ → Prop} (h₀ : I s)
    (hstep : ∀ t e u, I t → ok t e → step t e = some u → I u)
    (h : Run step ok s es t) : I t := by
  induction h with
  | nil => exact h₀
  | snoc _ hok hst ih => exact hstep _ _ _ ih hok hst

/-- The simulation rule: if, under an invariant, every step of one machine is a
    run of another one, between the images of its states, then so is every run. -/
theorem simulate {σ' ε' : Type*} {step' : σ' → ε' → Option σ'} {ok' : σ' → ε' → Prop}
    (f : σ → σ') {I : σ → Prop} (h₀ : I s)
    (hinv : ∀ t e u, I t → ok t e → step t e = some u → I u)
    (hsim : ∀ t e u, I t → ok t e → step t e = some u → ∃ es', Run step' ok' (f t) es' (f u))
    (h : Run step ok s es t) : ∃ es', Run step' ok' (f s) es' (f t) := by
  suffices I t ∧ ∃ es', Run step' ok' (f s) es' (f t) from this.2
  induction h with
  | nil => exact ⟨h₀, [], .nil⟩
  | snoc _ hok hst ih =>
    obtain ⟨hI, es', hrun⟩ := ih
    obtain ⟨fs', hrun'⟩ := hsim _ _ _ hI hok hst
    exact ⟨hinv _ _ _ hI hok hst, es' ++ fs', hrun.append hrun'⟩

/-- The rank rule: if every step lowers `rank`, a run is at most as long as the
    rank of the state it starts from. -/
theorem length_add_rank_le {I : σ → Prop} {rank : σ → ℕ} (h₀ : I s)
    (hinv : ∀ t e u, I t → ok t e → step t e = some u → I u)
    (hrank : ∀ t e u, I t → ok t e → step t e = some u → rank u < rank t)
    (h : Run step ok s es t) : es.length + rank t ≤ rank s := by
  suffices I t ∧ es.length + rank t ≤ rank s from this.2
  induction h with
  | nil => exact ⟨h₀, by simp⟩
  | snoc _ hok hst ih =>
    have hlt := hrank _ _ _ ih.1 hok hst
    refine ⟨hinv _ _ _ ih.1 hok hst, ?_⟩
    rw [List.length_append, List.length_singleton]
    omega

/-- So every state has a run to one without further steps. -/
theorem exists_maximal {I : σ → Prop} {rank : σ → ℕ} (h₀ : I s)
    (hinv : ∀ t e u, I t → ok t e → step t e = some u → I u)
    (hrank : ∀ t e u, I t → ok t e → step t e = some u → rank u < rank t) :
    ∃ es t, Run step ok s es t ∧ Maximal step ok t := by
  induction hn : rank s using Nat.strongRecOn generalizing s with
  | ind n ih =>
    by_cases hmax : Maximal step ok s
    · exact ⟨[], s, .nil, hmax⟩
    · obtain ⟨e, hok, hne⟩ : ∃ e, ok s e ∧ step s e ≠ none := by
        simpa [Maximal] using hmax
      obtain ⟨t, ht⟩ := Option.ne_none_iff_exists'.1 hne
      obtain ⟨es, u, hrun, hu⟩ :=
        ih (rank t) (hn ▸ hrank _ _ _ h₀ hok ht) (hinv _ _ _ h₀ hok ht) rfl
      exact ⟨[e] ++ es, u, (single hok ht).append hrun, hu⟩

/-- A computed execution is a run. -/
theorem of_exec (hok : Allowed step ok s es) (h : exec step s es = some t) :
    Run step ok s es t := by
  induction es generalizing s with
  | nil => rw [exec, Option.some.injEq] at h; exact h ▸ .nil
  | cons e es ih =>
    rw [exec, Option.bind_eq_some_iff] at h
    obtain ⟨v, hv, h⟩ := h
    exact (single hok.1 hv).append (ih (hok.2 v hv) h)

/-- The state a run reaches is the computed one. -/
theorem exec_eq (h : Run step ok s es t) : exec step s es = some t := by
  induction h with
  | nil => rfl
  | snoc _ _ hst ih =>
    rw [exec_append ih, exec, hst]
    rfl

/-- The step after a run puts out what follows the output of the run. -/
theorem trace_concat {α : Type*} {out : σ → ε → σ → List α} {e : ε} (h : Run step ok s es t)
    (hst : step t e = some u) :
    trace step out s (es ++ [e]) = trace step out s es ++ out t e u := by
  have hexec := h.exec_eq
  clear h
  induction es generalizing s with
  | nil =>
    rw [exec, Option.some.injEq] at hexec
    subst hexec
    simp [trace, hst]
  | cons f es ih =>
    obtain ⟨v, hv, hexec⟩ := Option.bind_eq_some_iff.1 hexec
    simp [trace, hv, ih hexec]

end Run

end Dss.Lib
