import Dss.Fs.Operations

/-!
# Operations that fail

An operation that reports failure leaves the entries of the name node as they
were, with one exception (`failed_unchanged_or`): `move_from_local` creates the
entry before it removes the local file, and reports failure if this throws.
-/

namespace Dss.Fs

open Dss.Lib Dss.Dfs

variable {S : Type*} {disk : LocalDisk S} {w : Stores S} {fs : DistributedFileSystem}
  {src dst : Bytes} {now : TimePoint}

/-- A failed operation within the distributed file system leaves the name node as
    it was. -/
theorem NamespaceOperation.nameNode_of_failed {op : NamespaceOperation}
    (h : Failed (op.run now fs).2) : (op.run now fs).1.nameNode = fs.nameNode := by
  cases op with
  | create path =>
    refine NameNode.createFile_fst_of_false _ (Bool.eq_false_iff.2 fun htrue => h ?_)
    rw [run, DistributedFileSystem.createFile]
    simp only [htrue, if_true]
    rfl
  | mkdir path => exact NameNode.createFile_fst_of_false _ (failed_ok.1 h)
  | remove path => exact NameNode.deleteFile_fst_of_false _ (failed_ok.1 h)
  | rename oldPath newPath => exact NameNode.renameFile_fst_of_false _ (failed_ok.1 h)
  | move src dst => exact NameNode.renameFile_fst_of_false _ (failed_ok.1 h)
  | copy src dst =>
    rw [run, DistributedFileSystem.copy] at h ⊢
    cases hsrc : fs.nameNode.getMetadata src with
    | none => rfl
    | some srcMetadata =>
      rw [hsrc] at h
      exact NameNode.createFile_fst_of_false _ (failed_ok.1 h)

/-- An operation that fails leaves the entries as they were, except for a move from
    the local disk that copied, and whose removal of the local file throws: the new
    entry stays. -/
theorem failed_unchanged_or {op : Operation} (h : Failed (op.run disk now w).2) :
    (op.run disk now w).1.fs.nameNode.metadata = w.fs.nameNode.metadata ∨
      ∃ src dst, op = .moveFromLocal src dst ∧ disk.pathExists w.localDisk src = some true ∧
        dst ∉ w.fs.nameNode.metadata ∧ disk.remove w.localDisk src = none ∧
        (op.run disk now w).1.fs.nameNode.metadata =
          w.fs.nameNode.metadata.insert dst (NameNode.newMetadata dst false now) := by
  cases op with
  | within op => exact .inl (congrArg NameNode.metadata (NamespaceOperation.nameNode_of_failed h))
  | copyFromLocal src dst =>
    left
    have hfalse : (w.copyFromLocal disk src dst now).2 = false := failed_ok.1 h
    rw [Operation.run]
    rw [Stores.copyFromLocal_eq] at hfalse ⊢
    split at hfalse
    next => cases hfalse
    next hcond => rw [if_neg hcond]
  | moveFromLocal src dst =>
    have hfalse : (w.moveFromLocal disk src dst now).2 = false := failed_ok.1 h
    rw [Operation.run]
    rw [Stores.moveFromLocal_eq] at hfalse ⊢
    split at hfalse
    next hcond =>
      right
      rw [if_pos hcond]
      cases hremove : disk.remove w.localDisk src with
      | some result =>
        rw [hremove] at hfalse
        cases hfalse
      | none => exact ⟨src, dst, rfl, hcond.1, hcond.2, hremove, rfl⟩
    next hcond =>
      left
      rw [if_neg hcond]
  | copyToLocal src dst => exact .inl (congrArg (·.nameNode.metadata) Stores.fs_copyToLocal)
  | moveToLocal src dst =>
    left
    have hfalse : (w.moveToLocal disk src dst).2 = false := failed_ok.1 h
    rw [Operation.run]
    rw [Stores.moveToLocal_eq] at hfalse ⊢
    split at hfalse
    next => cases hfalse
    next hcopy =>
      rw [if_neg hcopy]
      exact congrArg (·.nameNode.metadata) Stores.fs_copyToLocal

/-- A local directory with a file in it, which can't be removed. -/
def occupied : MemoryDisk :=
  ((∅ : MemoryDisk).insert (ascii "d") .directory).insert (ascii "d/f") (.file (ascii "text"))

/-- The entry of a directory that could not be moved stays. -/
theorem moveFromLocal_failed_adds :
    let w : Stores MemoryDisk := ⟨.newFileSystem, occupied⟩
    let r := (Operation.moveFromLocal (ascii "d") (ascii "e")).run memoryDisk 0 w
    Failed r.2 ∧ r.1.fs.nameNode.metadata ≠ w.fs.nameNode.metadata :=
  ⟨failed_ok.2 (by decide +kernel), by decide +kernel⟩

/-- What is moved to where there is an entry leaves the entries as they were. -/
theorem failed_unchanged_or_taken :
    let fs := (DistributedFileSystem.newFileSystem.mkdir (ascii "e") 0).1
    let r := (Operation.moveFromLocal (ascii "d") (ascii "e")).run memoryDisk 1 ⟨fs, occupied⟩
    Failed r.2 ∧ r.1.fs.nameNode.metadata = fs.nameNode.metadata := by
  intro fs r
  have hfailed : Failed r.2 := failed_ok.2 (by decide +kernel)
  refine ⟨hfailed, (failed_unchanged_or hfailed).resolve_right ?_⟩
  rintro ⟨src, dst, hop, -, hdst, -⟩
  obtain ⟨rfl, rfl⟩ := Operation.moveFromLocal.inj hop
  exact hdst (by decide +kernel)

end Dss.Fs
