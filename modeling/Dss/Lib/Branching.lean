import Dss.Lib.Failing
import Mathlib.Data.List.Perm.Basic
import Mathlib.Data.Fintype.Card
import Mathlib.Logic.Relation

/-!
# Branching without a memory

A branching has inner nodes, each followed by some others, and ends. From an inner node
it is expanded by going through what follows, and expanding each inner node among it,
without a memory of where one has been (`Branching.expand`): the ends are collected, as
often as they are met.

* An expansion comes to an end exactly if every walk does
  (`Branching.exists_yields_iff`), in a finite branching if no cycle is reached
  (`acc_iff_no_cycle`).
* The ends collected are those reached (`Branching.Yields.mem_iff`). One is collected
  twice if it is reached through two of the nodes that follow
  (`Branching.two_le_count_flatten`), and once if it is collected once through one of
  them and not through the others (`Branching.count_flatten_eq_one`).
* Where a branching covers another one, it collects what lies over what the other one
  collects (`Branching.Cover.yields`).
-/

namespace Dss.Lib

open Relation

variable {ν μ : Type}

structure Branching (ν : Type) where
  inner : ν → Bool
  next : ν → List ν

namespace Branching

variable (g : Branching ν)

/-- The ends met from an inner node, by calls nested at most `fuel` deep. -/
def expand : ℕ → ν → Option (List ν)
  | 0, _ => none
  | fuel + 1, n => do
    let ls ← (g.next n).mapM fun m => if g.inner m then expand fuel m else some [m]
    some ls.flatten

/-- What is collected from a node: an end is collected itself. -/
def Yields (n : ν) (l : List ν) : Prop :=
  if g.inner n then ∃ fuel, g.expand fuel n = some l else l = [n]

/-- The inner node `n` is followed by `m`. -/
def Leads (n m : ν) : Prop := g.inner n = true ∧ m ∈ g.next n

abbrev Reaches : ν → ν → Prop := ReflTransGen g.Leads

variable {g} {n m a : ν} {l : List ν} {fuel fuel' : ℕ}

/-! ## Expanding a node -/

theorem mapM_eq_some {α β : Type} {f : α → Option β} {as : List α} {bs : List β} :
    as.mapM f = some bs ↔ List.Forall₂ (fun a b => f a = some b) as bs := by
  induction as generalizing bs with
  | nil => simp [eq_comm]
  | cons a as ih =>
    rw [List.mapM_cons, List.forall₂_cons_left_iff]
    simp only [Option.bind_eq_bind, Option.bind_eq_some_iff, ih, pure, Option.some.injEq]
    constructor
    · rintro ⟨b, hb, bs', hbs, rfl⟩
      exact ⟨b, bs', hb, hbs, rfl⟩
    · rintro ⟨b, bs', hb, hbs, rfl⟩
      exact ⟨b, hb, bs', hbs, rfl⟩

theorem expand_succ : g.expand (fuel + 1) n = some l ↔ ∃ ls,
    List.Forall₂ (fun m l => (if g.inner m then g.expand fuel m else some [m]) = some l)
      (g.next n) ls ∧ l = ls.flatten := by
  simp only [expand, Option.bind_eq_bind, Option.bind_eq_some_iff, mapM_eq_some, Option.some.injEq,
    @eq_comm _ _ l]

theorem expand_mono (hle : fuel ≤ fuel') (h : g.expand fuel n = some l) :
    g.expand fuel' n = some l := by
  induction fuel generalizing fuel' n l with
  | zero => cases h
  | succ fuel ih =>
    obtain ⟨fuel', rfl⟩ : ∃ k, fuel' = k + 1 := ⟨fuel' - 1, by omega⟩
    obtain ⟨ls, hls, rfl⟩ := expand_succ.1 h
    refine expand_succ.2 ⟨ls, hls.imp fun m l hm => ?_, rfl⟩
    split_ifs at hm ⊢
    · exact ih (by omega) hm
    · exact hm

theorem yields_of_end (h : ¬g.inner n = true) : g.Yields n l ↔ l = [n] := by
  rw [Yields, if_neg h]

/-- There is one fuel that is enough for all nodes of a list. -/
theorem exists_fuel {ms : List ν} {ls : List (List ν)} (h : List.Forall₂ g.Yields ms ls) :
    ∃ fuel, List.Forall₂ (fun m l =>
      (if g.inner m then g.expand fuel m else some [m]) = some l) ms ls := by
  induction h with
  | nil => exact ⟨0, .nil⟩
  | @cons m l ms ls hm _ ih =>
    obtain ⟨fuel, hfuel⟩ := ih
    rw [Yields] at hm
    split_ifs at hm with hinner
    · obtain ⟨fuel', hm⟩ := hm
      refine ⟨max fuel fuel', .cons ?_ (hfuel.imp fun m l hm => ?_)⟩
      · rw [if_pos hinner]
        exact expand_mono (le_max_right _ _) hm
      · split_ifs at hm ⊢
        · exact expand_mono (le_max_left _ _) hm
        · exact hm
    · exact ⟨fuel, .cons (by rw [if_neg hinner, hm]) hfuel⟩

/-- A node yields what the nodes that follow it do. -/
theorem yields_of_inner (h : g.inner n = true) :
    g.Yields n l ↔ ∃ ls, List.Forall₂ g.Yields (g.next n) ls ∧ l = ls.flatten := by
  rw [Yields, if_pos h]
  constructor
  · rintro ⟨_ | fuel, hl⟩
    · cases hl
    · obtain ⟨ls, hls, rfl⟩ := expand_succ.1 hl
      refine ⟨ls, hls.imp fun m l hm => ?_, rfl⟩
      rw [Yields]
      split_ifs at hm ⊢
      · exact ⟨fuel, hm⟩
      · exact (Option.some.inj hm).symm
  · rintro ⟨ls, hls, rfl⟩
    obtain ⟨fuel, hfuel⟩ := exists_fuel hls
    exact ⟨fuel + 1, expand_succ.2 ⟨ls, hfuel, rfl⟩⟩

/-- What is yielded is followed by induction: from the nodes that follow to the node. -/
theorem Yields.induct {motive : ∀ n l, g.Yields n l → Prop}
    (hend : ∀ n h, ¬g.inner n = true → motive n [n] h)
    (hinner : ∀ n ls h, g.inner n = true →
      List.Forall₂ (fun m l => ∃ hm, motive m l hm) (g.next n) ls → motive n ls.flatten h)
    (h : g.Yields n l) : motive n l h := by
  have hexpand : ∀ fuel n l h, g.inner n = true → g.expand fuel n = some l → motive n l h := by
    intro fuel
    induction fuel with
    | zero => exact fun n l _ _ h => nomatch h
    | succ fuel ih =>
      intro n l h hn hl
      obtain ⟨ls, hls, rfl⟩ := expand_succ.1 hl
      refine hinner n ls h hn (hls.imp fun m l hm => ?_)
      split_ifs at hm with hm'
      · have hyields : g.Yields m l := by
          rw [Yields, if_pos hm']
          exact ⟨fuel, hm⟩
        exact ⟨hyields, ih m l hyields hm' hm⟩
      · obtain rfl := Option.some.inj hm
        have hyields := (yields_of_end hm').2 (Eq.refl [m])
        exact ⟨hyields, hend m hyields hm'⟩
  by_cases hn : g.inner n = true
  · have hfuel := h
    rw [Yields, if_pos hn] at hfuel
    obtain ⟨fuel, hfuel⟩ := hfuel
    exact hexpand fuel n l h hn hfuel
  · obtain rfl := (yields_of_end hn).1 h
    exact hend n h hn

/-! ## When an expansion comes to an end -/

/-- A node yields something exactly if every walk from it comes to an end. -/
theorem exists_yields_iff : (∃ l, g.Yields n l) ↔ Acc (Function.swap g.Leads) n := by
  constructor
  · rintro ⟨l, h⟩
    induction h using Yields.induct with
    | hend n _ hn => exact .intro n fun m hm => absurd hm.1 hn
    | hinner n ls _ _ hls =>
      refine .intro n fun m hm => ?_
      obtain ⟨l, -, _, hacc⟩ := exists_mem_of_forall₂ hls hm.2
      exact hacc
  · intro h
    induction h with
    | intro n _ ih =>
      by_cases hn : g.inner n = true
      · obtain ⟨ls, hls⟩ := exists_forall₂.2 fun m hm => ih m ⟨hn, hm⟩
        exact ⟨ls.flatten, (yields_of_inner hn).2 ⟨ls, hls, rfl⟩⟩
      · exact ⟨[n], (yields_of_end hn).2 rfl⟩

/-! ## What is collected -/

/-- The ends collected are those reached. -/
theorem Yields.mem_iff (h : g.Yields n l) : a ∈ l ↔ ¬g.inner a = true ∧ g.Reaches n a := by
  induction h using Yields.induct with
  | hend n _ hn =>
    rw [List.mem_singleton]
    constructor
    · rintro rfl
      exact ⟨hn, .refl⟩
    · rintro ⟨-, h⟩
      rcases h.cases_head with rfl | ⟨m, hm, -⟩
      · rfl
      · exact absurd hm.1 hn
  | hinner n ls _ hn hls =>
    rw [List.mem_flatten]
    constructor
    · rintro ⟨l, hl, ha⟩
      obtain ⟨m, hm, _, ih⟩ := exists_mem_of_forall₂ hls.flip hl
      obtain ⟨hend, hreaches⟩ := ih.1 ha
      exact ⟨hend, .head ⟨hn, hm⟩ hreaches⟩
    · rintro ⟨hend, h⟩
      rcases h.cases_head with rfl | ⟨m, ⟨-, hm⟩, hreaches⟩
      · exact absurd hn hend
      · obtain ⟨l, hl, _, ih⟩ := exists_mem_of_forall₂ hls hm
        exact ⟨l, hl, ih.2 ⟨hend, hreaches⟩⟩

section

variable {ε : Type} [BEq ν] {e e' : ε} {es : List ε} {ls : List (List ν)}
  {R : ε → List ν → Prop}

/-- What is collected more than once through one of the nodes that follow. -/
theorem le_count_flatten {k : ℕ} (h : List.Forall₂ R es ls) (he : e ∈ es)
    (hk : ∀ l, R e l → k ≤ l.count a) : k ≤ ls.flatten.count a := by
  obtain ⟨l, hl, hR⟩ := exists_mem_of_forall₂ h he
  exact (hk l hR).trans ((List.sublist_flatten_of_mem hl).count_le a)

/-- What is collected through two of them. -/
theorem two_le_count_flatten (h : List.Forall₂ R es ls) (he : e ∈ es) (he' : e' ∈ es)
    (hne : e ≠ e') (ha : ∀ l, R e l → 1 ≤ l.count a) (ha' : ∀ l, R e' l → 1 ≤ l.count a) :
    2 ≤ ls.flatten.count a := by
  induction h with
  | nil => cases he
  | @cons x l es ls hl htail ih =>
    rw [List.flatten_cons, List.count_append]
    rcases List.mem_cons.1 he with rfl | hmem
    · have := ha l hl
      have := le_count_flatten htail ((List.mem_cons.1 he').resolve_left hne.symm) ha'
      omega
    · rcases List.mem_cons.1 he' with rfl | hmem'
      · have := ha' l hl
        have := le_count_flatten htail hmem ha
        omega
      · have := ih hmem hmem'
        omega

variable [LawfulBEq ν]

/-- What is collected once through one of them, and not through the others. -/
theorem count_flatten_eq_one (h : List.Forall₂ R es ls) (he : e ∈ es) (hes : es.Nodup)
    (ha : ∀ l, R e l → l.count a = 1) (ha' : ∀ e' ∈ es, e' ≠ e → ∀ l, R e' l → a ∉ l) :
    ls.flatten.count a = 1 := by
  induction h with
  | nil => cases he
  | @cons x l es ls hl htail ih =>
    rw [List.nodup_cons] at hes
    rw [List.flatten_cons, List.count_append]
    rcases List.mem_cons.1 he with rfl | he
    · rw [ha l hl, List.count_eq_zero_of_not_mem]
      rw [List.mem_flatten]
      rintro ⟨l', hl', hmem⟩
      obtain ⟨e', he', hR⟩ := exists_mem_of_forall₂ htail.flip hl'
      exact ha' e' (List.mem_cons_of_mem _ he') (fun heq => hes.1 (heq ▸ he')) l' hR hmem
    · have hne : x ≠ e := fun heq => hes.1 (heq ▸ he)
      rw [List.count_eq_zero_of_not_mem (ha' x List.mem_cons_self hne l hl), Nat.zero_add]
      exact ih he hes.2 fun e' he' => ha' e' (List.mem_cons_of_mem _ he')

end

/-! ## Coverings -/

/-- Over what follows a node lies what follows the nodes over it, each once. -/
structure Cover (g : Branching ν) (h : Branching μ) (f : ν → μ) : Prop where
  inner : ∀ n, g.inner n = h.inner (f n)
  next : ∀ n, g.inner n = true → ((g.next n).map f).Perm (h.next (f n))

variable {h : Branching μ} {f : ν → μ}

/-- Walks come to an end below exactly if they do above. -/
theorem Cover.acc_iff (hf : Cover g h f) :
    Acc (Function.swap g.Leads) n ↔ Acc (Function.swap h.Leads) (f n) := by
  constructor
  · refine Acc.of_fibration f fun n m hm => ?_
    have hn : g.inner n = true := (hf.inner n).trans hm.1
    obtain ⟨k, hk, rfl⟩ := List.mem_map.1 ((hf.next n hn).mem_iff.2 hm.2)
    exact ⟨k, ⟨hn, hk⟩, rfl⟩
  · refine fun hacc => Subrelation.accessible ?_ (InvImage.accessible f hacc)
    rintro m n ⟨hn, hm⟩
    exact ⟨(hf.inner n).symm.trans hn, (hf.next n hn).mem_iff.1 (List.mem_map_of_mem hm)⟩

theorem exists_over {ms : List ν} {ls : List (List ν)}
    (hls : List.Forall₂ (fun m l => ∃ l', h.Yields (f m) l' ∧ (l.map f).Perm l') ms ls) :
    ∃ ls', List.Forall₂ h.Yields (ms.map f) ls' ∧ (ls.flatten.map f).Perm ls'.flatten := by
  induction hls with
  | nil => exact ⟨[], .nil, .refl _⟩
  | cons hm _ ih =>
    obtain ⟨l', hl', hperm⟩ := hm
    obtain ⟨ls', hls', hperm'⟩ := ih
    refine ⟨l' :: ls', .cons hl' hls', ?_⟩
    rw [List.flatten_cons, List.map_append, List.flatten_cons]
    exact hperm.append hperm'

/-- What is collected above lies over what is collected below. -/
theorem Cover.yields (hf : Cover g h f) (hl : g.Yields n l) :
    ∃ l', h.Yields (f n) l' ∧ (l.map f).Perm l' := by
  induction hl using Yields.induct with
  | hend n _ hn => exact ⟨[f n], (yields_of_end (hf.inner n ▸ hn)).2 rfl, .refl _⟩
  | hinner n ls _ hn hls =>
    obtain ⟨ls', hls', hperm⟩ := exists_over (hls.imp fun m l ⟨_, h⟩ => h)
    -- the nodes below follow in another order
    obtain ⟨ls₁, hls₁, hperm₁⟩ := List.perm_comp_forall₂ (hf.next n hn).symm hls'
    have hn' : h.inner (f n) = true := (hf.inner n).symm.trans hn
    exact ⟨ls₁.flatten, (yields_of_inner hn').2 ⟨ls₁, hls₁, rfl⟩,
      hperm.trans hperm₁.symm.flatten⟩

end Branching

/-! ## Finite relations -/

section

variable {r : ν → ν → Prop} {n m : ν}

theorem not_rel_of_acc (h : Acc r n) : ¬r n n := by
  induction h with
  | intro n _ ih => exact fun hn => ih n hn hn

theorem acc_of_reaches (h : Acc (Function.swap r) n) (hm : ReflTransGen r n m) :
    Acc (Function.swap r) m := by
  induction hm with
  | refl => exact h
  | tail _ hm ih => exact ih.inv hm

theorem not_cycle_of_acc (h : Acc (Function.swap r) n) (hm : ReflTransGen r n m) :
    ¬TransGen r m m :=
  fun hcycle => not_rel_of_acc (acc_of_reaches h hm).transGen (transGen_swap.2 hcycle)

/-- In a finite relation every walk comes to an end exactly if no cycle is reached. -/
theorem acc_iff_no_cycle [Finite ν] :
    Acc (Function.swap r) n ↔ ∀ m, ReflTransGen r n m → ¬TransGen r m m := by
  refine ⟨fun h m => not_cycle_of_acc h, fun h => ?_⟩
  let s (a b : ν) : Prop := TransGen r b a ∧ ReflTransGen r n b
  have : IsTrans ν s := ⟨fun a b c hab hbc => ⟨hbc.1.trans hab.1, hbc.2⟩⟩
  have : Std.Irrefl s := ⟨fun a ha => h a ha.2 ha.1⟩
  have hs : WellFounded s := Finite.wellFounded_of_trans_of_irrefl s
  have hacc : ∀ m, ReflTransGen r n m → Acc (Function.swap r) m := fun m => by
    induction m using hs.induction with
    | _ m ih => exact fun hm => .intro m fun k hk => ih k ⟨.single hk, hm⟩ (hm.tail hk)
  exact hacc n .refl

end

end Dss.Lib
