import Dss.Dfs.NameNode

/-!
# Listing a directory

`name_node::list_directory` finds the entries of a directory by their paths: what
starts with the path of the directory and a `'/'`, and has no further `'/'`. The
entry at this very prefix is an entry with an empty name, which is listed
(`mem_listDirectory`), unless the path asked for is spelled with the `'/'`. So the
names listed are those of the direct children exactly if there is no such entry
(`listsChildren_iff`).
-/

namespace Dss.Dfs.NameNode

open Dss.Lib

variable {n : NameNode} {order order' : IterationOrder Bytes FileMetadata}
  {path filePath name : Bytes}

/-- The path of the entry `name` in the directory `path`. -/
def childPath (path name : Bytes) : Bytes := if path = [] then name else path ++ slash :: name

theorem listPrefix_append (hpath : path.getLast? ≠ some slash) (name : Bytes) :
    listPrefix path ++ name = childPath path name := by
  by_cases hnil : path = []
  · simp [listPrefix, childPath, hnil]
  · simp [listPrefix, childPath, hnil, hpath]

theorem listPrefix_append_slash (path : Bytes) :
    listPrefix (path ++ [slash]) = path ++ [slash] := by
  simp [listPrefix]

/-! ## What is listed -/

/-- A key is listed if it is the prefix of the directory and a name without a
    `'/'`, and is not the path asked for. -/
theorem directChild_eq_some : directChild path filePath = some name ↔
    slash ∉ name ∧ filePath = listPrefix path ++ name ∧ filePath ≠ path := by
  rw [directChild]
  constructor
  · intro h
    split at h
    next hcond =>
      obtain ⟨⟨relative, rfl⟩, hne⟩ := hcond
      simp only [List.drop_left] at h
      split at h
      next => cases h
      next hslash =>
        rw [Option.some.injEq] at h
        exact ⟨h ▸ hslash, h ▸ rfl, hne⟩
    next => cases h
  · rintro ⟨hslash, rfl, hne⟩
    rw [if_pos ⟨List.prefix_append _ _, hne⟩, List.drop_left, if_neg hslash]

theorem mem_keys_entries : path ∈ (order.entries n.metadata).keys ↔ path ∈ n.metadata := by
  rw [Finmap.mem_iff, List.mem_keys]
  simp only [order.mem_entries]

theorem mem_listDirectory : name ∈ n.listDirectory order path ↔
    slash ∉ name ∧ listPrefix path ++ name ∈ n.metadata ∧ listPrefix path ++ name ≠ path := by
  simp only [listDirectory, List.mem_filterMap, mem_keys_entries, directChild_eq_some]
  constructor
  · rintro ⟨_, hmem, hslash, rfl, hne⟩
    exact ⟨hslash, hmem, hne⟩
  · rintro ⟨hslash, hmem, hne⟩
    exact ⟨_, hmem, hslash, rfl, hne⟩

/-- No name is listed twice, as no key is. -/
theorem nodup_listDirectory : (n.listDirectory order path).Nodup := by
  refine List.Nodup.filterMap (fun a b name ha hb => ?_) (order.nodupKeys_entries n.metadata)
  rw [Option.mem_def, directChild_eq_some] at ha hb
  rw [ha.2.1, hb.2.1]

/-! ## The direct children -/

/-- The listing of a directory has the names of its direct children, each of them
    once, and so has the listing of its path with a `'/'`. -/
structure ListsChildren (n : NameNode) (order order' : IterationOrder Bytes FileMetadata)
    (path : Bytes) : Prop where
  mem : ∀ name, name ∈ n.listDirectory order path ↔
    name ≠ [] ∧ slash ∉ name ∧ childPath path name ∈ n.metadata
  nodup : (n.listDirectory order path).Nodup
  slashed : path ≠ [] →
    (n.listDirectory order' (path ++ [slash])).Perm (n.listDirectory order path)

/-- An entry at the prefix of a directory is listed with an empty name. -/
theorem not_listsChildren (hpath : path.getLast? ≠ some slash) (hnil : path ≠ [])
    (hmem : path ++ [slash] ∈ n.metadata) : ¬ListsChildren n order order' path := by
  intro h
  have hempty : [] ∈ n.listDirectory order path := by
    rw [mem_listDirectory, listPrefix_append hpath, childPath, if_neg hnil]
    exact ⟨by simp, hmem, by simp⟩
  exact ((h.mem []).1 hempty).1 rfl

/-- The direct children of a directory are listed exactly if its path with a
    `'/'` is no entry, or the directory is the root. -/
theorem listsChildren_iff (hpath : path.getLast? ≠ some slash) :
    ListsChildren n order order' path ↔ path = [] ∨ path ++ [slash] ∉ n.metadata := by
  constructor
  · exact fun h => or_iff_not_imp_left.2 fun hnil hmem => not_listsChildren hpath hnil hmem h
  · intro hcond
    have hmem : ∀ name, name ∈ n.listDirectory order path ↔
        name ≠ [] ∧ slash ∉ name ∧ childPath path name ∈ n.metadata := by
      intro name
      rw [mem_listDirectory, listPrefix_append hpath]
      by_cases hnil : path = []
      · simp only [childPath, hnil, if_true]
        tauto
      · have hslash := hcond.resolve_left hnil
        have hname : path ++ slash :: name ∈ n.metadata → name ≠ [] := by
          rintro hmem rfl
          exact hslash hmem
        have hne : path ++ slash :: name ≠ path := by simp
        simp only [childPath, hnil, if_false]
        tauto
    refine ⟨hmem, nodup_listDirectory, fun hnil => ?_⟩
    refine (List.perm_ext_iff_of_nodup nodup_listDirectory nodup_listDirectory).2 fun name => ?_
    rw [hmem, mem_listDirectory, listPrefix_append_slash, childPath, if_neg hnil,
      List.append_assoc, List.singleton_append]
    have hne : path ++ slash :: name ≠ path ++ [slash] ↔ name ≠ [] := by simp
    rw [hne]
    tauto

/-- An entry is created whose path ends in a `'/'`: it is listed with an empty
    name. -/
theorem not_listsChildren_slash :
    let n := ((NameNode.create 1).createFile (ascii "a/") false 0).1
    (ascii "a").getLast? ≠ some slash ∧
      ∀ order order', ¬ListsChildren n order order' (ascii "a") := by
  intro n
  have hpath : (ascii "a").getLast? ≠ some slash := by decide
  refine ⟨hpath, fun order order' h => ?_⟩
  exact not_listsChildren hpath (by decide) (by decide +kernel) h

/-- A directory with a file in it. -/
theorem listsChildren_iff_directory :
    let n := (((NameNode.create 1).createFile (ascii "a") true 0).1.createFile (ascii "a/b") false
      1).1
    (ascii "a").getLast? ≠ some slash ∧ ∀ order, ListsChildren n order order (ascii "a") := by
  intro n
  have hpath : (ascii "a").getLast? ≠ some slash := by decide
  exact ⟨hpath, fun order => (listsChildren_iff hpath).2 (.inr (by decide +kernel))⟩

end Dss.Dfs.NameNode
