import Mathlib.Data.Finmap
import Mathlib.Data.List.Sort

/-!
# Unordered maps

A `std::unordered_map` is a finite map together with an order of iteration the
standard leaves open. The map is a `Finmap`; an `IterationOrder` is a choice of
the order, any enumeration of the entries of every map. Inserting the entries
of a map one by one, in any order, gives the map back (`insertAll_entries`).
-/

namespace Dss.Lib

/-- The contents of a `std::unordered_map`. -/
abbrev UnorderedMap (α β : Type*) := Finmap (fun _ : α => β)

/-- An order of iteration: an enumeration of the entries of every map. -/
structure IterationOrder (α β : Type*) where
  entries : UnorderedMap α β → List (Σ _ : α, β)
  coe_entries : ∀ m, (entries m : Multiset (Σ _ : α, β)) = m.entries

variable {α β : Type*}

noncomputable instance : Inhabited (IterationOrder α β) :=
  ⟨⟨fun m => m.entries.toList, fun m => m.entries.coe_toList⟩⟩

/-- The entries in the order of a key of theirs, an order that can be computed. -/
def IterationOrder.sortedBy {γ : Type*} [LinearOrder γ] (f : (Σ _ : α, β) → γ)
    (hf : Function.Injective f) : IterationOrder α β where
  entries m := Quot.liftOn m.entries (List.insertionSort fun e e' => f e ≤ f e') fun l l' hl => by
    have : Std.Total fun e e' => f e ≤ f e' := ⟨fun _ _ => le_total _ _⟩
    have : IsTrans _ fun e e' => f e ≤ f e' := ⟨fun _ _ _ => le_trans⟩
    have : Std.Antisymm fun e e' => f e ≤ f e' := ⟨fun _ _ h h' => hf (le_antisymm h h')⟩
    -- sorting leaves one of the enumerations only
    refine List.Perm.eq_of_pairwise' (List.pairwise_insertionSort _ l)
      (List.pairwise_insertionSort _ l') ?_
    exact ((List.perm_insertionSort _ l).trans hl).trans (List.perm_insertionSort _ l').symm
  coe_entries m := by
    obtain ⟨⟨l⟩, _⟩ := m
    exact Multiset.coe_eq_coe.2 (List.perm_insertionSort _ l)

namespace IterationOrder

variable (o : IterationOrder α β) (m : UnorderedMap α β)

theorem nodupKeys_entries : (o.entries m).NodupKeys := by
  have h := m.nodupKeys
  rw [← o.coe_entries m] at h
  exact Multiset.coe_nodupKeys.1 h

variable [DecidableEq α] {m} {k : α} {v : β}

/-- The lookup of a map is that of its list of entries. -/
theorem dlookup_entries : (o.entries m).dlookup k = m.lookup k := by
  have hm : m = AList.toFinmap ⟨o.entries m, o.nodupKeys_entries m⟩ :=
    Finmap.ext (o.coe_entries m).symm
  conv_rhs => rw [hm]
  rfl

/-- The entries of a map are what its lookup gives. -/
theorem mem_entries : (⟨k, v⟩ : Σ _ : α, β) ∈ o.entries m ↔ m.lookup k = some v := by
  rw [← List.mem_dlookup_iff (o.nodupKeys_entries m), o.dlookup_entries, Option.mem_def]

omit [DecidableEq α] in
@[simp] theorem entries_singleton (k : α) (v : β) :
    o.entries (Finmap.singleton k v) = [⟨k, v⟩] :=
  Multiset.coe_eq_singleton.1 (o.coe_entries _)

end IterationOrder

/-! ## Inserting one by one -/

variable [DecidableEq α]

/-- `m[k] = v` for the given keys and values in turn. -/
def insertAll (m : UnorderedMap α β) (l : List (Σ _ : α, β)) : UnorderedMap α β :=
  l.foldl (fun m e => m.insert e.1 e.2) m

variable {l : List (Σ _ : α, β)} {m : UnorderedMap α β} {k : α}

@[simp] theorem insertAll_nil : insertAll m [] = m := rfl

@[simp] theorem insertAll_cons (e : Σ _ : α, β) :
    insertAll m (e :: l) = insertAll (m.insert e.1 e.2) l := rfl

/-- With the keys all different, every entry inserted is found afterwards, and
    what was there before under the other keys. -/
theorem lookup_insertAll (hl : l.NodupKeys) :
    (insertAll m l).lookup k = (l.dlookup k).or (m.lookup k) := by
  induction l generalizing m with
  | nil => rfl
  | cons e l ih =>
    obtain ⟨k', v⟩ := e
    rw [List.nodupKeys_cons] at hl
    rw [insertAll_cons, ih hl.2]
    by_cases hk : k = k'
    · subst hk
      rw [List.dlookup_cons_eq, List.dlookup_eq_none.2 hl.1, Finmap.lookup_insert]
      rfl
    · rw [List.dlookup_cons_ne _ _ hk, Finmap.lookup_insert_of_ne _ hk]

/-- Inserting the entries of a map in any order gives the map. -/
theorem insertAll_entries (o : IterationOrder α β) : insertAll ∅ (o.entries m) = m := by
  refine Finmap.ext_lookup fun k => ?_
  rw [lookup_insertAll (o.nodupKeys_entries m), Finmap.lookup_empty, Option.or_none,
    o.dlookup_entries]

end Dss.Lib
