import Dss.Lib.Run

/-!
# Linearization

A sequential object (`run`) takes an operation to its state afterwards and to what it
returns. A list of operations, each with what it is to return, *replays* from a state if
they do return that, one after the other (`Replays`).

If each step of a machine puts out operations that replay from what the machine stands
for before the step to what it stands for afterwards, then so do the operations put out
in a run (`Run.replays`). So the machine, whatever else happens in it, is the object,
with every operation in effect at the step that puts it out.
-/

namespace Dss.Lib

variable {σ ε α ω ρ : Type*} {run : α → ω → α × ρ} {a b c : α} {ops ops' : List (ω × ρ)}

/-- The operations return what they are to return, one after the other. -/
def Replays (run : α → ω → α × ρ) : α → List (ω × ρ) → α → Prop
  | a, [], b => a = b
  | a, (op, returned) :: ops, b =>
    (run a op).2 = returned ∧ Replays run (run a op).1 ops b

theorem Replays.nil : Replays run a [] a := rfl

theorem Replays.single {op : ω} {returned : ρ} (h : run a op = (b, returned)) :
    Replays run a [(op, returned)] b := by
  rw [Replays, h]
  exact ⟨rfl, rfl⟩

theorem Replays.append (h : Replays run a ops b) (h' : Replays run b ops' c) :
    Replays run a (ops ++ ops') c := by
  induction ops generalizing a with
  | nil =>
    rw [Replays] at h
    rwa [h]
  | cons op ops ih => exact ⟨h.1, ih h.2⟩

/-- The linearization rule: the operations put out in a run replay if those put out in
    each step do, under an invariant. -/
theorem Run.replays {step : σ → ε → Option σ} {ok : σ → ε → Prop} {s t : σ} {es : List ε}
    {I : σ → Prop} {out : σ → ε → σ → List (ω × ρ)} (abs : σ → α) (h₀ : I s)
    (hinv : ∀ t e u, I t → ok t e → step t e = some u → I u)
    (hstep : ∀ t e u, I t → ok t e → step t e = some u →
      Replays run (abs t) (out t e u) (abs u)) (h : Run step ok s es t) :
    Replays run (abs s) (trace step out s es) (abs t) := by
  suffices I t ∧ Replays run (abs s) (trace step out s es) (abs t) from this.2
  induction h with
  | nil => exact ⟨h₀, .nil⟩
  | snoc hrun hok hst ih =>
    refine ⟨hinv _ _ _ ih.1 hok hst, ?_⟩
    rw [hrun.trace_concat hst]
    exact ih.2.append (hstep _ _ _ ih.1 hok hst)

end Dss.Lib
