import Dss.Lib.UnorderedMap

/-!
# Tree-shaped maps

A map whose keys are the places of a hierarchy: `anc d p` says that `d` is above
`p`. Some of its values are directories. The map is tree-shaped (`TreeShaped`) if
above each of its entries there are directories only.

For each way to change the map it is said exactly when it keeps this shape:

* an entry is added (`treeShaped_insert_iff`): it is added below directories;
* an entry is removed (`treeShaped_erase_iff`): nothing is below it;
* an entry is moved (`treeShaped_rename_iff`): nothing is below it, and it is
  moved below directories other than itself.
-/

namespace Dss.Lib

variable {K V : Type*} [DecidableEq K]

/-- There is a directory at `d`. -/
def IsDirAt (isDir : V → Prop) (m : UnorderedMap K V) (d : K) : Prop :=
  ∃ v, m.lookup d = some v ∧ isDir v

/-- Above every entry there are directories only. -/
def TreeShaped (anc : K → K → Prop) (isDir : V → Prop) (m : UnorderedMap K V) : Prop :=
  ∀ d p, anc d p → p ∈ m → IsDirAt isDir m d

variable {anc : K → K → Prop} {isDir : V → Prop} {m m' : UnorderedMap K V} {d p q : K} {v : V}

theorem IsDirAt.mem (h : IsDirAt isDir m d) : d ∈ m :=
  let ⟨_, hv, _⟩ := h
  Finmap.mem_of_lookup_eq_some hv

/-- What is at a place decides whether there is a directory. -/
theorem isDirAt_congr (h : m'.lookup d = m.lookup d) :
    IsDirAt isDir m' d ↔ IsDirAt isDir m d := by
  rw [IsDirAt, IsDirAt, h]

theorem isDirAt_insert_of_ne (h : d ≠ p) : IsDirAt isDir (m.insert p v) d ↔ IsDirAt isDir m d :=
  isDirAt_congr (Finmap.lookup_insert_of_ne _ h)

theorem isDirAt_erase : IsDirAt isDir (m.erase p) d ↔ d ≠ p ∧ IsDirAt isDir m d := by
  by_cases h : d = p
  · subst h
    simp [IsDirAt]
  · rw [isDirAt_congr (Finmap.lookup_erase_ne h)]
    simp [h]

theorem treeShaped_empty : TreeShaped anc isDir (∅ : UnorderedMap K V) :=
  fun _ _ _ hp => absurd hp Finmap.notMem_empty

/-- An entry below directories, in the place of one that is no directory, if there
    is one. -/
theorem TreeShaped.insert (h : TreeShaped anc isDir m) (hp : ¬IsDirAt isDir m p)
    (hanc : ∀ d, anc d p → IsDirAt isDir m d) : TreeShaped anc isDir (m.insert p v) := by
  intro d q hdq hq
  have hd : IsDirAt isDir m d := by
    rcases Finmap.mem_insert.1 hq with rfl | hq
    · exact hanc d hdq
    · exact h d q hdq hq
  rwa [isDirAt_insert_of_ne]
  rintro rfl
  exact hp hd

/-- A new entry keeps the shape exactly if it is below directories. -/
theorem treeShaped_insert_iff (hirr : ∀ p, ¬anc p p) (h : TreeShaped anc isDir m) (hp : p ∉ m) :
    TreeShaped anc isDir (m.insert p v) ↔ ∀ d, anc d p → IsDirAt isDir m d := by
  constructor
  · intro h' d hd
    have hne : d ≠ p := by
      rintro rfl
      exact hirr d hd
    exact (isDirAt_insert_of_ne hne).1 (h' d p hd (Finmap.mem_insert.2 (.inl rfl)))
  · exact fun hanc => h.insert (fun hdir => hp hdir.mem) hanc

/-- An entry removed keeps the shape exactly if nothing is below it. -/
theorem treeShaped_erase_iff (hirr : ∀ p, ¬anc p p) (h : TreeShaped anc isDir m) :
    TreeShaped anc isDir (m.erase p) ↔ ∀ q, q ∈ m → ¬anc p q := by
  constructor
  · intro h' q hq hanc
    have hne : q ≠ p := by
      rintro rfl
      exact hirr q hanc
    exact (isDirAt_erase.1 (h' p q hanc (Finmap.mem_erase.2 ⟨hne, hq⟩))).1 rfl
  · intro hleaf d q hdq hq
    have hmem := (Finmap.mem_erase.1 hq).2
    refine isDirAt_erase.2 ⟨?_, h d q hdq hmem⟩
    rintro rfl
    exact hleaf q hmem hdq

/-- An entry moved to a new place keeps the shape exactly if nothing is below it,
    and it is moved below directories other than itself. -/
theorem treeShaped_rename_iff (hirr : ∀ p, ¬anc p p) (h : TreeShaped anc isDir m) (hp : p ∈ m)
    (hq : q ∉ m) : TreeShaped anc isDir ((m.erase p).insert q v) ↔
      (∀ r, r ∈ m → ¬anc p r) ∧ ∀ d, anc d q → d ≠ p ∧ IsDirAt isDir m d := by
  have hq' : q ∉ m.erase p := fun hmem => hq (Finmap.mem_erase.1 hmem).2
  by_cases hleaf : ∀ r, r ∈ m → ¬anc p r
  · have herase := (treeShaped_erase_iff hirr h).2 hleaf
    rw [treeShaped_insert_iff hirr herase hq']
    simp only [isDirAt_erase]
    exact ⟨fun hanc => ⟨hleaf, hanc⟩, And.right⟩
  · -- what is below the old place is left without a directory
    refine ⟨fun h' => absurd (fun r hr hanc => ?_) hleaf, fun hcond => absurd hcond.1 hleaf⟩
    have hne : r ≠ p := by
      rintro rfl
      exact hirr r hanc
    have hdir := h' p r hanc (Finmap.mem_insert.2 (.inr (Finmap.mem_erase.2 ⟨hne, hr⟩)))
    have hpq : p ≠ q := by
      rintro rfl
      exact hq hp
    exact (isDirAt_erase.1 ((isDirAt_insert_of_ne hpq).1 hdir)).1 rfl

end Dss.Lib
