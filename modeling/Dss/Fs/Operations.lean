import Dss.Fs.DistributedFileSystem
import Dss.Fs.LocalDisk

/-!
# Operations of the distributed file system

The functions of `distributed_file_system` on files. Those that stay in the
distributed file system work on its name node; those that move data between it
and the local disk work on both (`Stores`). The time is passed to what reads the
clock.

An operation (`Operation`) is one of the ten that change something, with its
arguments; its outcome is what it returns, or the text of the exception it throws.
-/

namespace Dss.Fs

open Dss.Lib Dss.Dfs

namespace DistributedFileSystem

variable (fs : DistributedFileSystem)

/-- `open`: the stream returned has no buffer. -/
def openFile (path : Bytes) : Except Bytes Unit :=
  match fs.nameNode.getMetadata path with
  | none => .error (ascii "File not found or is a directory: " ++ path)
  | some metadata =>
    if metadata.isDirectory then .error (ascii "File not found or is a directory: " ++ path)
    else .ok ()

/-- `create`: the stream returned has no buffer. -/
def createFile (path : Bytes) (now : TimePoint) : DistributedFileSystem × Except Bytes Unit :=
  let (nameNode, created) := fs.nameNode.createFile path false now
  ({ fs with nameNode },
    if created then .ok () else .error (ascii "Failed to create file: " ++ path))

def rename (oldPath newPath : Bytes) (now : TimePoint) : DistributedFileSystem × Bool :=
  let (nameNode, renamed) := fs.nameNode.renameFile oldPath newPath now
  ({ fs with nameNode }, renamed)

def remove (path : Bytes) : DistributedFileSystem × Bool :=
  let (nameNode, removed) := fs.nameNode.deleteFile path
  ({ fs with nameNode }, removed)

def copy (src dst : Bytes) (now : TimePoint) : DistributedFileSystem × Bool :=
  match fs.nameNode.getMetadata src with
  | none => (fs, false)
  | some srcMetadata =>
    let (nameNode, created) := fs.nameNode.createFile dst srcMetadata.isDirectory now
    ({ fs with nameNode }, created)

def move (src dst : Bytes) (now : TimePoint) : DistributedFileSystem × Bool :=
  let (nameNode, renamed) := fs.nameNode.renameFile src dst now
  ({ fs with nameNode }, renamed)

def isExists (path : Bytes) : Bool := (fs.nameNode.getMetadata path).isSome

def isDirectory (path : Bytes) : Bool := (fs.nameNode.getMetadata path).any (·.isDirectory)

/-- A file can be opened exactly if there is an entry that is no directory. -/
theorem openFile_eq_ok_iff {path : Bytes} : fs.openFile path = .ok () ↔
    fs.isExists path = true ∧ fs.isDirectory path = false := by
  rw [openFile, isExists, isDirectory]
  cases hmeta : fs.nameNode.getMetadata path with
  | none => simp
  | some metadata => cases hdir : metadata.isDirectory <;> simp [hdir]

def size (path : Bytes) : UInt64 := ((fs.nameNode.getMetadata path).map (·.size)).getD 0

def listFiles (order : IterationOrder Bytes FileMetadata) (path : Bytes) : List Bytes :=
  fs.nameNode.listDirectory order path

def mkdir (path : Bytes) (now : TimePoint) : DistributedFileSystem × Bool :=
  let (nameNode, created) := fs.nameNode.createFile path true now
  ({ fs with nameNode }, created)

/-- `read_data_from_nodes`: nothing is read yet. -/
def readDataFromNodes (_block : FileBlock) : Bytes := []

/-- A new file system, with a data node on the host `a`. -/
def newFileSystem : DistributedFileSystem where
  nameNode := (NameNode.create 1).registerDataNode (newDataNode default ⟨ascii "a", 9001⟩ 0)
  config := configurationOf 1 ["a"]

theorem create_newFileSystem : create default (configurationOf 1 ["a"]) = .ok newFileSystem := rfl

end DistributedFileSystem

/-! ## Between the local disk and the distributed file system -/

/-- The two file systems. -/
structure Stores (S : Type*) where
  fs : DistributedFileSystem
  /-- The state of the local disk. -/
  localDisk : S

namespace Stores

variable {S : Type*} (disk : LocalDisk S) (w : Stores S)

def copyFromLocal (src dst : Bytes) (now : TimePoint) : Stores S × Bool :=
  match disk.pathExists w.localDisk src with
  | none => (w, false)
  | some false => (w, false)
  | some true =>
    let (nameNode, created) := w.fs.nameNode.createFile dst false now
    ({ w with fs := { w.fs with nameNode } }, created)

def moveFromLocal (src dst : Bytes) (now : TimePoint) : Stores S × Bool :=
  match copyFromLocal disk w src dst now with
  | (w, false) => (w, false)
  | (w, true) =>
    match disk.remove w.localDisk src with
    | some (_, localDisk) => ({ w with localDisk }, true)
    | none => (w, false)

def copyToLocal (src dst : Bytes) : Stores S × Bool :=
  match w.fs.nameNode.getMetadata src with
  | none => (w, false)
  | some metadata =>
    if metadata.isDirectory then (w, false)
    else
      match disk.openTruncated w.localDisk dst with
      | none => (w, false)
      | some localDisk => ({ w with localDisk }, true)

def moveToLocal (src dst : Bytes) : Stores S × Bool :=
  match copyToLocal disk w src dst with
  | (w, false) => (w, false)
  | (w, true) =>
    let (nameNode, removed) := w.fs.nameNode.deleteFile src
    ({ w with fs := { w.fs with nameNode } }, removed)

/-! ### What they do -/

/-- The stores with a new, empty file at `dst`. -/
def withNewFile (dst : Bytes) (now : TimePoint) : Stores S :=
  let metadata := w.fs.nameNode.metadata.insert dst (NameNode.newMetadata dst false now)
  { w with fs := { w.fs with nameNode := { w.fs.nameNode with metadata } } }

variable {disk w} {src dst : Bytes} {now : TimePoint}

/-- Data is only copied from where there is something to where there is no entry,
    and all that is copied is the name. -/
theorem copyFromLocal_eq :
    w.copyFromLocal disk src dst now =
      if disk.pathExists w.localDisk src = some true ∧ dst ∉ w.fs.nameNode.metadata then
        (w.withNewFile dst now, true)
      else (w, false) := by
  rw [copyFromLocal]
  split
  next h => simp [h]
  next h => simp [h]
  next h =>
    by_cases hdst : dst ∈ w.fs.nameNode.metadata
    · simp [h, hdst, NameNode.createFile_of_mem]
    · simp [h, hdst, NameNode.createFile_of_notMem, withNewFile]

/-- The local file is removed once the entry is there. -/
theorem moveFromLocal_eq :
    w.moveFromLocal disk src dst now =
      if disk.pathExists w.localDisk src = some true ∧ dst ∉ w.fs.nameNode.metadata then
        match disk.remove w.localDisk src with
        | some (_, localDisk) => (⟨(w.withNewFile dst now).fs, localDisk⟩, true)
        | none => (w.withNewFile dst now, false)
      else (w, false) := by
  rw [moveFromLocal, copyFromLocal_eq]
  by_cases hcond : disk.pathExists w.localDisk src = some true ∧ dst ∉ w.fs.nameNode.metadata
  · rw [if_pos hcond, if_pos hcond]
    rfl
  · rw [if_neg hcond, if_neg hcond]

/-- The local file is opened for the data of a file, of which none is written. -/
theorem of_copyToLocal (h : (w.copyToLocal disk src dst).2 = true) :
    ∃ metadata localDisk, w.fs.nameNode.getMetadata src = some metadata ∧
      metadata.isDirectory = false ∧ disk.openTruncated w.localDisk dst = some localDisk ∧
      w.copyToLocal disk src dst = ({ w with localDisk }, true) := by
  rw [copyToLocal] at h ⊢
  cases hsrc : w.fs.nameNode.getMetadata src with
  | none =>
    rw [hsrc] at h
    cases h
  | some metadata =>
    cases hdir : metadata.isDirectory with
    | true =>
      simp [hsrc, hdir] at h
    | false =>
      cases hopen : disk.openTruncated w.localDisk dst with
      | none => simp [hsrc, hdir, hopen] at h
      | some localDisk => exact ⟨metadata, localDisk, rfl, hdir, rfl, by simp [hdir]⟩

/-- The name node is left as it was by a copy to the local disk. -/
theorem fs_copyToLocal : (w.copyToLocal disk src dst).1.fs = w.fs := by
  rw [copyToLocal]
  split
  next => rfl
  next =>
    split
    next => rfl
    next => split <;> rfl

/-- Once the data of a file is copied, the file is there to be deleted. -/
theorem moveToLocal_eq : w.moveToLocal disk src dst =
    let w' := (w.copyToLocal disk src dst).1
    if (w.copyToLocal disk src dst).2 = true then
      ({ w' with fs := { w.fs with nameNode := (w.fs.nameNode.deleteFile src).1 } }, true)
    else (w', false) := by
  rw [moveToLocal]
  by_cases h : (w.copyToLocal disk src dst).2 = true
  · obtain ⟨metadata, localDisk, hsrc, -, -, heq⟩ := of_copyToLocal h
    have hmem : src ∈ w.fs.nameNode.metadata := Finmap.mem_of_lookup_eq_some hsrc
    simp [heq, NameNode.deleteFile_of_mem _ hmem]
  · have hpair : w.copyToLocal disk src dst = ((w.copyToLocal disk src dst).1, false) :=
      Prod.ext rfl (Bool.eq_false_iff.2 h)
    rw [hpair]
    rfl

end Stores

/-! ## Operations -/

/-- The operations within the distributed file system. -/
inductive NamespaceOperation
  | create (path : Bytes)
  | mkdir (path : Bytes)
  | remove (path : Bytes)
  | rename (oldPath newPath : Bytes)
  | move (src dst : Bytes)
  | copy (src dst : Bytes)
  deriving DecidableEq

/-- An operation at the time `now`. -/
def NamespaceOperation.run (now : TimePoint) (fs : DistributedFileSystem) :
    NamespaceOperation → DistributedFileSystem × Except Bytes Bool
  | create path =>
    let (fs, created) := fs.createFile path now
    (fs, created.map fun _ => true)
  | mkdir path =>
    let (fs, created) := fs.mkdir path now
    (fs, .ok created)
  | remove path =>
    let (fs, removed) := fs.remove path
    (fs, .ok removed)
  | rename oldPath newPath =>
    let (fs, renamed) := fs.rename oldPath newPath now
    (fs, .ok renamed)
  | move src dst =>
    let (fs, moved) := fs.move src dst now
    (fs, .ok moved)
  | copy src dst =>
    let (fs, copied) := fs.copy src dst now
    (fs, .ok copied)

inductive Operation
  /-- One within the distributed file system. -/
  | within (op : NamespaceOperation)
  | copyFromLocal (src dst : Bytes)
  | moveFromLocal (src dst : Bytes)
  | copyToLocal (src dst : Bytes)
  | moveToLocal (src dst : Bytes)
  deriving DecidableEq

/-- An operation without interference, at the time `now`. -/
def Operation.run {S : Type*} (disk : LocalDisk S) (now : TimePoint) (w : Stores S) :
    Operation → Stores S × Except Bytes Bool
  | within op =>
    let (fs, outcome) := op.run now w.fs
    ({ w with fs }, outcome)
  | copyFromLocal src dst =>
    let (w, copied) := w.copyFromLocal disk src dst now
    (w, .ok copied)
  | moveFromLocal src dst =>
    let (w, moved) := w.moveFromLocal disk src dst now
    (w, .ok moved)
  | copyToLocal src dst =>
    let (w, copied) := w.copyToLocal disk src dst
    (w, .ok copied)
  | moveToLocal src dst =>
    let (w, moved) := w.moveToLocal disk src dst
    (w, .ok moved)

/-- An operation reports failure if it returns `false` or throws. -/
def Failed (outcome : Except Bytes Bool) : Prop := outcome ≠ .ok true

theorem failed_ok {returned : Bool} : Failed (.ok returned) ↔ returned = false := by
  simp [Failed]

end Dss.Fs
