import Dss.Lib.Run

/-!
# Runs seen by a part of the events

Some of the events of a machine are *ours* (`mine`). They do not depend on the others
if there is a relation between states such that the others do not leave it, and
ours do alike, and put out the same, in related states (`Unwinding`). Then a run,
with the events that are not ours left out, is a run again, and ours put out in it
what they put out before (`Unwinding.run`).
-/

namespace Dss.Lib

variable {σ ε α : Type*} {step : σ → ε → Option σ} {ok : σ → ε → Prop} {mine : ε → Bool}
  {out : σ → ε → List α} {R : σ → σ → Prop}

/-- The events that are ours do not depend on the others: `R` relates states that
    look the same to them. -/
structure Unwinding (step : σ → ε → Option σ) (ok : σ → ε → Prop) (mine : ε → Bool)
    (out : σ → ε → List α) (R : σ → σ → Prop) : Prop where
  /-- The others change nothing that is looked at. -/
  others : ∀ s e t u, R s u → ok s e → mine e = false → step s e = some t → R t u
  /-- Ours do alike in states that look the same. -/
  ours : ∀ s e t u, R s u → ok s e → mine e → step s e = some t →
    ∃ v, step u e = some v ∧ R t v
  /-- And they put out the same. -/
  same : ∀ s e u, R s u → ok s e → mine e → out s e = out u e

/-- What the events of `mine` put out along a list of events. -/
def outputs (step : σ → ε → Option σ) (mine : ε → Bool) (out : σ → ε → List α) (s : σ)
    (es : List ε) : List α :=
  trace step (fun s e _ => if mine e then out s e else []) s es

namespace Unwinding

/-- What remains of a run without the others' events is a run, and puts out the
    same. -/
theorem run {s t u : σ} {es : List ε} (h : Unwinding step ok mine out R) (hR : R s u)
    (hrun : Run step ok s es t) :
    ∃ v, Run step always u (es.filter mine) v ∧ R t v ∧
      outputs step mine out u (es.filter mine) = outputs step mine out s es := by
  induction hrun with
  | nil => exact ⟨u, .nil, hR, rfl⟩
  | @snoc es t' t e hrun hok hst ih =>
    obtain ⟨v, hrun', hR', hout⟩ := ih
    rw [outputs, outputs] at hout ⊢
    rw [hrun.trace_concat hst, List.filter_append]
    cases hmine : mine e with
    | false =>
      rw [List.filter_cons_of_neg (by simp [hmine]), List.filter_nil, List.append_nil, hout]
      exact ⟨v, hrun', h.others _ _ _ _ hR' hok hmine hst, by simp⟩
    | true =>
      obtain ⟨v', hst', hR''⟩ := h.ours _ _ _ _ hR' hok hmine hst
      rw [List.filter_cons_of_pos hmine, List.filter_nil, hrun'.trace_concat hst', hout,
        if_pos hmine, if_pos rfl, h.same _ _ _ hR' hok hmine]
      exact ⟨v', hrun'.snoc trivial hst', hR'', rfl⟩

end Unwinding

end Dss.Lib
