import Dss.Dfs.NameNode
import Dss.Lib.TreeShape

/-!
# Directories and what is below them

The name node keeps a flat map of paths; a path `d/name` is below the path `d` only
by its spelling (`Below`). A directory is renamed as a single entry: what is below
it stays where it is, so its subtree is moved only if there is nothing below it
(`movesSubtree_iff`).

The map is a tree if every entry below a path (other than the empty one) is below a
directory (`IsTree`). No function looks for the directories above an entry, or for
the entries below one. For each of the three that change the map it is said when it
keeps the tree.
-/

namespace Dss.Dfs

open Dss.Lib

/-- The path has the form `d/name`. -/
def Below (d path : Bytes) : Prop := ∃ name, path = d ++ slash :: name

theorem Below.ne {d path : Bytes} (h : Below d path) : path ≠ d := by
  obtain ⟨name, rfl⟩ := h
  simp

instance (d path : Bytes) : Decidable (Below d path) :=
  decidable_of_iff (d ++ [slash] <+: path) (by simp [Below, List.IsPrefix, eq_comm])

/-- The path is below `d`, which is not the empty path. -/
def Above (d path : Bytes) : Prop := d ≠ [] ∧ Below d path

instance (d path : Bytes) : Decidable (Above d path) := inferInstanceAs (Decidable (_ ∧ _))

theorem not_above_self (path : Bytes) : ¬Above path path := fun h => h.2.ne rfl

/-- What the metadata says of a file, wherever it is and whenever it was modified. -/
def FileMetadata.content (metadata : FileMetadata) :
    Bool × UInt64 × List FileBlock × UnorderedMap Bytes Bytes × TimePoint :=
  (metadata.isDirectory, metadata.size, metadata.blocks, metadata.attributes,
    metadata.createdTime)

namespace NameNode

variable {n n' : NameNode} {oldPath newPath path : Bytes} {now : TimePoint}
  {metadata : FileMetadata}

/-! ## Renaming a directory -/

/-- What was below `oldPath` is below `newPath`, under the same names, and nothing
    else has changed. -/
structure MovesSubtree (n n' : NameNode) (oldPath newPath : Bytes) : Prop where
  moved : ∀ s, (n'.metadata.lookup (newPath ++ slash :: s)).map FileMetadata.content =
    (n.metadata.lookup (oldPath ++ slash :: s)).map FileMetadata.content
  gone : ∀ path, path = oldPath ∨ Below oldPath path → path ∉ n'.metadata
  frame : ∀ path, path ≠ oldPath → ¬Below oldPath path → path ≠ newPath → ¬Below newPath path →
    n'.metadata.lookup path = n.metadata.lookup path

/-- Where a rename is successful, any path but the two has the entry it had. -/
theorem lookup_renameFile (hold : n.metadata.lookup oldPath = some metadata)
    (hnew : newPath ∉ n.metadata) (hpath : path ≠ newPath) :
    (n.renameFile oldPath newPath now).1.metadata.lookup path =
      if path = oldPath then none else n.metadata.lookup path := by
  rw [n.renameFile_eq hold hnew]
  refine (Finmap.lookup_insert_of_ne _ hpath).trans ?_
  split
  next h => rw [h, Finmap.lookup_erase]
  next h => exact Finmap.lookup_erase_ne h

/-- The subtree of a directory is moved by a rename to a free place elsewhere
    exactly if there is nothing below the directory. -/
theorem movesSubtree_iff (hold : n.metadata.lookup oldPath = some metadata)
    (hbelow : ¬Below oldPath newPath)
    (hnew : ∀ path ∈ n.metadata, path ≠ newPath ∧ ¬Below newPath path) :
    ((n.renameFile oldPath newPath now).2 = true →
        MovesSubtree n (n.renameFile oldPath newPath now).1 oldPath newPath) ↔
      ∀ path ∈ n.metadata, ¬Below oldPath path := by
  have hfree : newPath ∉ n.metadata := fun hmem => (hnew newPath hmem).1 rfl
  have hlookup : ∀ path, path ≠ newPath →
      (n.renameFile oldPath newPath now).1.metadata.lookup path =
        if path = oldPath then none else n.metadata.lookup path :=
    fun path hpath => lookup_renameFile hold hfree hpath
  constructor
  · intro h path hmem hpath
    have hmoves := h (by rw [n.renameFile_eq hold hfree])
    have hne : path ≠ newPath := by
      rintro rfl
      exact hbelow hpath
    -- it is still where it was
    have hgone := Finmap.lookup_eq_none.2 (hmoves.gone path (.inr hpath))
    rw [hlookup path hne, if_neg hpath.ne] at hgone
    exact Finmap.lookup_eq_none.1 hgone hmem
  · intro hleaf _
    have hnone : ∀ path, Below oldPath path → n.metadata.lookup path = none :=
      fun path hpath => Finmap.lookup_eq_none.2 fun hmem => hleaf path hmem hpath
    refine ⟨fun s => ?_, fun path hpath => ?_, fun path hne _ hne' _ => ?_⟩
    · have hs : newPath ++ slash :: s ∉ n.metadata := fun hmem => (hnew _ hmem).2 ⟨s, rfl⟩
      rw [hlookup _ (by simp), hnone _ ⟨s, rfl⟩, Finmap.lookup_eq_none.2 hs, ite_self]
    · have hne : path ≠ newPath := by
        rintro rfl
        rcases hpath with rfl | hpath
        · exact hfree (Finmap.mem_of_lookup_eq_some hold)
        · exact hbelow hpath
      refine Finmap.lookup_eq_none.1 ?_
      rw [hlookup path hne]
      rcases hpath with rfl | hpath
      · exact if_pos rfl
      · rw [hnone path hpath, ite_self]
    · rw [hlookup path hne', if_neg hne]

/-- A directory `a` with the entry `child`. -/
def directoryWith (child : String) : NameNode :=
  (((create 1).createFile (ascii "a") true 0).1.createFile (ascii child) false 1).1

/-- The file in a directory is not moved with it. -/
theorem not_movesSubtree_file :
    let n := directoryWith "a/b"
    ¬Below (ascii "a") (ascii "c") ∧
      (∀ path ∈ n.metadata, path ≠ ascii "c" ∧ ¬Below (ascii "c") path) ∧
      (n.renameFile (ascii "a") (ascii "c") 2).2 = true ∧
      ¬MovesSubtree n (n.renameFile (ascii "a") (ascii "c") 2).1 (ascii "a") (ascii "c") := by
  intro n
  have hnew : ∀ path ∈ n.metadata.keys, path ≠ ascii "c" ∧ ¬Below (ascii "c") path := by
    decide +kernel
  refine ⟨by decide, fun path hmem => hnew path (Finmap.mem_keys.2 hmem), by decide +kernel, ?_⟩
  exact fun h => h.gone (ascii "a/b") (.inr (by decide)) (by decide +kernel)

/-- A directory is moved whose name is only the beginning of another one. -/
theorem movesSubtree_iff_sibling :
    let n := directoryWith "ab"
    (∃ metadata, n.metadata.lookup (ascii "a") = some metadata) ∧
      ¬Below (ascii "a") (ascii "c") ∧
      (∀ path ∈ n.metadata, path ≠ ascii "c" ∧ ¬Below (ascii "c") path) ∧
      MovesSubtree n (n.renameFile (ascii "a") (ascii "c") 2).1 (ascii "a") (ascii "c") := by
  intro n
  have hold : n.metadata.lookup (ascii "a") = some (newMetadata (ascii "a") true 0) := by
    decide +kernel
  have hnew : ∀ path ∈ n.metadata.keys, path ≠ ascii "c" ∧ ¬Below (ascii "c") path := by
    decide +kernel
  have hleaf : ∀ path ∈ n.metadata.keys, ¬Below (ascii "a") path := by decide +kernel
  have hnew' := fun path hmem => hnew path (Finmap.mem_keys.2 hmem)
  exact ⟨⟨_, hold⟩, by decide, hnew', (movesSubtree_iff hold (by decide) hnew').2
    (fun path hmem => hleaf path (Finmap.mem_keys.2 hmem)) (by decide +kernel)⟩

/-! ## The tree -/

/-- Above every entry there are directories. -/
def IsTree (n : NameNode) : Prop :=
  TreeShaped Above (fun metadata : FileMetadata => metadata.isDirectory = true) n.metadata

/-- There is a directory at `d`. -/
def HasDirectory (n : NameNode) (d : Bytes) : Prop :=
  IsDirAt (fun metadata : FileMetadata => metadata.isDirectory = true) n.metadata d

/-- No entry is below `path`. -/
def IsLeaf (n : NameNode) (path : Bytes) : Prop := ∀ path' ∈ n.metadata, ¬Above path path'

variable {isDirectory : Bool}

/-- A file is created in the tree exactly if it is created below directories. -/
theorem isTree_createFile_iff (h : IsTree n) : IsTree (n.createFile path isDirectory now).1 ↔
    (path ∉ n.metadata → ∀ d, Above d path → HasDirectory n d) := by
  by_cases hmem : path ∈ n.metadata
  · simp [n.createFile_of_mem hmem, hmem, h]
  · rw [n.createFile_of_notMem hmem, IsTree, treeShaped_insert_iff not_above_self h hmem]
    exact ⟨fun hdir _ => hdir, fun hdir => hdir hmem⟩

/-- A file is deleted from the tree exactly if there is nothing below it. -/
theorem isTree_deleteFile_iff (h : IsTree n) : IsTree (n.deleteFile path).1 ↔
    (path ∈ n.metadata → IsLeaf n path) := by
  by_cases hmem : path ∈ n.metadata
  · rw [n.deleteFile_of_mem hmem, IsTree, treeShaped_erase_iff not_above_self h]
    exact ⟨fun hleaf _ => hleaf, fun hleaf => hleaf hmem⟩
  · simp [n.deleteFile_of_notMem hmem, hmem, h]

/-- A file is renamed in the tree exactly if there is nothing below it, and its new
    path is below directories other than itself. -/
theorem isTree_renameFile_iff (h : IsTree n) : IsTree (n.renameFile oldPath newPath now).1 ↔
    (oldPath ∈ n.metadata → newPath ∉ n.metadata →
      IsLeaf n oldPath ∧ ∀ d, Above d newPath → d ≠ oldPath ∧ HasDirectory n d) := by
  by_cases hold : oldPath ∈ n.metadata
  · by_cases hnew : newPath ∈ n.metadata
    · simp [n.renameFile_of_mem hold hnew, hnew, h]
    · obtain ⟨metadata, hlookup⟩ := Finmap.mem_iff.1 hold
      rw [n.renameFile_eq hlookup hnew, IsTree,
        treeShaped_rename_iff not_above_self h hold hnew]
      exact ⟨fun hcond _ _ => hcond, fun hcond => hcond hold hnew⟩
  · simp [n.renameFile_of_notMem hold, hold, h]

end NameNode

end Dss.Dfs
