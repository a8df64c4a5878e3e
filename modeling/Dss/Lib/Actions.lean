import Dss.Lib.Failing
import Mathlib.Data.List.Perm.Basic
import Mathlib.Data.List.Nodup

/-!
# Actions on a shared state

An action changes a state and returns a value, or fails. A list of actions, each with a
key, is run one after the other (`runAll`). If each is confined to a part of the state
of its own, which a view shows under its key (`Confined`), then each returns what it
returns on the state at the start (`returns_runAll`), and the order in which they are
run does not matter (`returns_runAll_perm`).
-/

namespace Dss.Lib

variable {σ κ υ ε α β : Type}

/-- A computation on a state that may fail. -/
abbrev Action (σ ε α : Type) := σ → Except ε (α × σ)

/-- The action returns `a`, whatever it makes of the state. -/
def Returns (c : Action σ ε α) (s : σ) (a : α) : Prop := ∃ s', c s = .ok (a, s')

/-- Runs the actions one after the other; their values are returned under their keys. -/
def runAll : List (κ × Action σ ε α) → Action σ ε (List (κ × α))
  | [], s => return ([], s)
  | c :: cs, s => do
    let (a, s) ← c.2 s
    let (as, s) ← runAll cs s
    return ((c.1, a) :: as, s)

/-- The action depends on what the view shows under the key, and changes nothing that it
    shows under other keys. -/
structure Confined (view : σ → κ → υ) (key : κ) (c : Action σ ε α) : Prop where
  reads : ∀ s s', view s key = view s' key → ∀ a, Returns c s a → Returns c s' a
  writes : ∀ s a s', c s = .ok (a, s') → ∀ key' ≠ key, view s' key' = view s key'

/-- An action returns one value. -/
theorem Returns.unique {c : Action σ ε α} {s : σ} {a a' : α} (h : Returns c s a)
    (h' : Returns c s a') : a = a' := by
  obtain ⟨t, ht⟩ := h
  obtain ⟨t', ht'⟩ := h'
  rw [ht, Except.ok.injEq, Prod.mk.injEq] at ht'
  exact ht'.1

/-! ## Related lists -/

section

variable {R R' : α → β → Prop} {as : List α} {bs : List β}

theorem forall₂_imp_of_mem (h : ∀ a ∈ as, ∀ b, R a b → R' a b) (hR : List.Forall₂ R as bs) :
    List.Forall₂ R' as bs := by
  induction hR with
  | nil => exact .nil
  | cons hab _ ih =>
    exact .cons (h _ List.mem_cons_self _ hab) (ih fun a ha => h a (List.mem_cons_of_mem _ ha))

theorem map_fst_eq_of_forall₂ {l : List (κ × α)} {l' : List (κ × β)} {R : α → β → Prop}
    (h : List.Forall₂ (fun c a => a.1 = c.1 ∧ R c.2 a.2) l l') :
    l'.map Prod.fst = l.map Prod.fst := by
  induction h with
  | nil => rfl
  | cons hab _ ih => rw [List.map_cons, List.map_cons, hab.1, ih]

/-- With the keys all different, every entry of a list is found. -/
theorem lookup_of_mem [BEq κ] [LawfulBEq κ] {l : List (κ × α)} (hl : (l.map Prod.fst).Nodup)
    {e : κ × α} (he : e ∈ l) : l.lookup e.1 = some e.2 := by
  induction l with
  | nil => cases he
  | cons f l ih =>
    obtain ⟨key, a⟩ := f
    rw [List.map_cons, List.nodup_cons] at hl
    rcases List.mem_cons.1 he with rfl | he
    · exact List.lookup_cons_self
    · have hmem : e.1 ∈ l.map Prod.fst := List.mem_map_of_mem he
      have hne : e.1 ≠ key := fun h => hl.1 (h ▸ hmem)
      rw [List.lookup_cons, beq_false_of_ne hne]
      exact ih hl.2 he

end

/-! ## Running actions -/

variable {view : σ → κ → υ} {cs cs' : List (κ × Action σ ε α)} {s : σ} {as bs : List (κ × α)}

/-- Confined actions with different keys return what they return at the start. -/
theorem returns_runAll (hcs : ∀ c ∈ cs, Confined view c.1 c.2) (hkeys : (cs.map Prod.fst).Nodup) :
    Returns (runAll cs) s as ↔
      List.Forall₂ (fun c a => a.1 = c.1 ∧ Returns c.2 s a.2) cs as := by
  induction cs generalizing s as with
  | nil => simp [Returns, runAll, pure, Except.pure, eq_comm]
  | cons c cs ih =>
    rw [List.map_cons, List.nodup_cons] at hkeys
    obtain ⟨hc, hcs⟩ := List.forall_mem_cons.1 hcs
    -- the first action leaves alone what the others depend on
    have hlater : ∀ a s₁, c.2 s = .ok (a, s₁) → ∀ c' ∈ cs, view s₁ c'.1 = view s c'.1 := by
      refine fun a s₁ h c' hc' => hc.writes s a s₁ h c'.1 fun heq => hkeys.1 ?_
      exact heq ▸ List.mem_map_of_mem hc'
    rw [List.forall₂_cons_left_iff]
    constructor
    · rintro ⟨s₂, h⟩
      simp only [runAll, bind_eq_ok, pure, Except.pure, Except.ok.injEq] at h
      obtain ⟨⟨a, s₁⟩, ha, ⟨as, s₂⟩, has, heq⟩ := h
      obtain ⟨rfl, rfl⟩ := Prod.mk.inj heq
      refine ⟨(c.1, a), as, ⟨rfl, s₁, ha⟩, ?_, rfl⟩
      refine forall₂_imp_of_mem (fun c' hc' b hb => ⟨hb.1, ?_⟩) ((ih hcs hkeys.2).1 ⟨s₂, has⟩)
      exact (hcs c' hc').reads _ _ (hlater a s₁ ha c' hc') _ hb.2
    · rintro ⟨⟨_, a⟩, as, ⟨rfl, s₁, ha⟩, has, rfl⟩
      obtain ⟨s₂, h⟩ := (ih hcs hkeys.2).2 (forall₂_imp_of_mem (fun c' hc' b hb => ⟨hb.1,
        (hcs c' hc').reads _ _ (hlater a s₁ ha c' hc').symm _ hb.2⟩) has)
      exact ⟨s₂, by simp [runAll, ha, h, bind, Except.bind, pure, Except.pure]⟩

/-- So they do in any order, and their values can be put in that of the list. -/
theorem returns_runAll_perm [BEq κ] [LawfulBEq κ] (hcs : ∀ c ∈ cs, Confined view c.1 c.2)
    (hkeys : (cs.map Prod.fst).Nodup) (hperm : cs'.Perm cs) (d : α) :
    (∃ as, Returns (runAll cs') s as ∧
      bs = (cs.map Prod.fst).map fun key => (key, (as.lookup key).getD d)) ↔
      List.Forall₂ (fun c a => a.1 = c.1 ∧ Returns c.2 s a.2) cs bs := by
  have hcs' : ∀ c ∈ cs', Confined view c.1 c.2 := fun c hc => hcs c (hperm.mem_iff.1 hc)
  have hkeys' : (cs'.map Prod.fst).Nodup := (hperm.map Prod.fst).nodup_iff.2 hkeys
  -- the values returned, in the order of the list
  have hsort : ∀ as, Returns (runAll cs') s as →
      List.Forall₂ (fun c a => a.1 = c.1 ∧ Returns c.2 s a.2) cs
        ((cs.map Prod.fst).map fun key => (key, (as.lookup key).getD d)) := by
    intro as has
    rw [returns_runAll hcs' hkeys'] at has
    rw [List.map_map, List.forall₂_map_right_iff, List.forall₂_same]
    intro c hc
    obtain ⟨e, he, hkey, hreturns⟩ := exists_mem_of_forall₂ has (hperm.mem_iff.2 hc)
    have hfst : as.map Prod.fst = cs'.map Prod.fst :=
      map_fst_eq_of_forall₂ (R := fun c a => Returns c s a) has
    have hlookup := lookup_of_mem (hfst ▸ hkeys') he
    rw [hkey] at hlookup
    exact ⟨rfl, by simpa [hlookup] using hreturns⟩
  constructor
  · rintro ⟨as, has, rfl⟩
    exact hsort as has
  · intro hbs
    obtain ⟨as, has⟩ : ∃ as, Returns (runAll cs') s as := by
      simp only [returns_runAll hcs' hkeys']
      refine exists_forall₂.2 fun c hc => ?_
      obtain ⟨b, -, hb⟩ := exists_mem_of_forall₂ hbs (hperm.mem_iff.1 hc)
      exact ⟨b, hb⟩
    refine ⟨as, has, List.right_unique_forall₂' ?_ hbs (hsort as has)⟩
    rintro c b b' ⟨hb, hreturns⟩ ⟨hb', hreturns'⟩
    exact Prod.ext (hb.trans hb'.symm) (hreturns.unique hreturns')

end Dss.Lib
