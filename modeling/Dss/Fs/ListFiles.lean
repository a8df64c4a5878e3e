import Dss.Dfs.Listing
import Dss.Fs.Operations

/-!
# Listing files

The interface `file_system` says that `list_files` lists nothing of a path that
does not exist or is no directory (`FileSystem.ListingContract`). It has two
implementations, and neither looks at the path this way: the distributed file
system lists what is below the path, be there a directory or not; the local one
lists a path that is no directory as itself. It is said of each of them at which
paths it does what the interface says (`listingContract_iff`).
-/

namespace Dss.Fs

open Dss.Lib Dss.Dfs

/-- What the contract speaks of, of an implementation of `file_system`. -/
structure FileSystem where
  isExists : Bytes → Bool
  isDirectory : Bytes → Bool
  /-- The files listed, `none` if the call does not return. -/
  listFiles : Bytes → Option (List Bytes)

/-- The names listed are "empty if path doesn't exist or is not a directory". -/
def FileSystem.ListingContract (fs : FileSystem) (path : Bytes) : Prop :=
  fs.isExists path = false ∨ fs.isDirectory path = false → fs.listFiles path = some []

/-! ## The distributed file system -/

namespace DistributedFileSystem

variable {fs : DistributedFileSystem} {order : IterationOrder Bytes FileMetadata} {path : Bytes}

def toFileSystem (fs : DistributedFileSystem) (order : IterationOrder Bytes FileMetadata) :
    FileSystem where
  isExists := fs.isExists
  isDirectory := fs.isDirectory
  listFiles path := some (fs.listFiles order path)

/-- A directory exists. -/
theorem isExists_of_isDirectory (h : fs.isDirectory path = true) : fs.isExists path = true := by
  rw [isDirectory] at h
  rw [isExists]
  cases hmeta : fs.nameNode.getMetadata path with
  | none => simp [hmeta] at h
  | some metadata => rfl

/-- The contract is met at the directories, and where there is no other entry whose
    path is the prefix listed and a name. -/
theorem meetsContract_iff : (fs.toFileSystem order).ListingContract path ↔
    fs.isDirectory path = true ∨ ∀ name, slash ∉ name →
      NameNode.listPrefix path ++ name ∈ fs.nameNode.metadata →
        NameNode.listPrefix path ++ name = path := by
  have hlist : fs.listFiles order path = [] ↔ ∀ name, slash ∉ name →
      NameNode.listPrefix path ++ name ∈ fs.nameNode.metadata →
        NameNode.listPrefix path ++ name = path := by
    rw [listFiles, List.eq_nil_iff_forall_not_mem]
    simp only [NameNode.mem_listDirectory, not_and, not_not]
  rw [← hlist, FileSystem.ListingContract]
  simp only [toFileSystem, Option.some.injEq]
  constructor
  · intro h
    by_cases hdir : fs.isDirectory path = true
    · exact .inl hdir
    · exact .inr (h (.inr (Bool.eq_false_iff.2 hdir)))
  · rintro (hdir | hnil) hnot
    · simp [hdir, isExists_of_isDirectory hdir] at hnot
    · exact hnil

end DistributedFileSystem

/-! ## The local file system -/

/-- What `boost::filesystem` says of the paths of a disk, whose directories can all
    be read. -/
structure BoostFilesystem where
  pathExists : Bytes → Bool
  isDirectory : Bytes → Bool
  /-- The paths a `directory_iterator` goes through. -/
  entries : Bytes → List Bytes
  exists_of_isDirectory : ∀ {path}, isDirectory path = true → pathExists path = true

namespace LocalFileSystem

variable (boost : BoostFilesystem) {path : Bytes} {fuel : ℕ}

def isExists (path : Bytes) : Bool := boost.pathExists path

def isDirectory (path : Bytes) : Bool := boost.isDirectory path

/-- `get_directory_files`, with calls nested at most `fuel` deep. -/
def getDirectoryFiles : ℕ → Bytes → Option (List Bytes)
  | 0, _ => none
  | fuel + 1, path => do
    let files ← (boost.entries path).mapM fun entryPath =>
      if boost.isDirectory entryPath then getDirectoryFiles fuel entryPath else some [entryPath]
    some files.flatten

def listFiles (fuel : ℕ) (path : Bytes) : Option (List Bytes) :=
  if isDirectory boost path then getDirectoryFiles boost fuel path else some [path]

def toFileSystem (fuel : ℕ) : FileSystem where
  isExists := isExists boost
  isDirectory := isDirectory boost
  listFiles := listFiles boost fuel

/-- The contract is met at the directories only: any other path is listed as
    itself. -/
theorem meetsContract_iff : (toFileSystem boost fuel).ListingContract path ↔
    boost.isDirectory path = true := by
  rw [FileSystem.ListingContract]
  simp only [toFileSystem, isExists, isDirectory, listFiles]
  constructor
  · intro h
    by_contra hdir
    simp [hdir] at h
  · rintro hdir (hexists | hnot)
    · rw [boost.exists_of_isDirectory hdir] at hexists
      cases hexists
    · rw [hdir] at hnot
      cases hnot

end LocalFileSystem

/-! ## Both -/

/-- The contract is met by the distributed file system at the directories, and
    where no other entry is found by its spelling; and by the local one at the
    directories. -/
theorem listingContract_iff (fs : DistributedFileSystem)
    (order : IterationOrder Bytes FileMetadata) (boost : BoostFilesystem) (fuel : ℕ)
    (path : Bytes) :
    ((fs.toFileSystem order).ListingContract path ↔
        fs.isDirectory path = true ∨ ∀ name, slash ∉ name →
          NameNode.listPrefix path ++ name ∈ fs.nameNode.metadata →
            NameNode.listPrefix path ++ name = path) ∧
      ((LocalFileSystem.toFileSystem boost fuel).ListingContract path ↔
        boost.isDirectory path = true) :=
  ⟨DistributedFileSystem.meetsContract_iff, LocalFileSystem.meetsContract_iff boost⟩

/-- A disk without files, seen from its root. -/
def emptyDisk : BoostFilesystem where
  pathExists path := path = [slash]
  isDirectory path := path = [slash]
  entries _ := []
  exists_of_isDirectory := id

/-- The directory `a` is not there, but a file is listed in it, and the local file
    `a` is listed though there is none. -/
theorem not_listingContract_missing :
    let fs := (DistributedFileSystem.newFileSystem.createFile (ascii "a/b") 0).1
    (∀ order, ¬(fs.toFileSystem order).ListingContract (ascii "a")) ∧
      ∀ fuel, ¬(LocalFileSystem.toFileSystem emptyDisk fuel).ListingContract (ascii "a") := by
  intro fs
  refine ⟨fun order h => ?_, fun fuel h => ?_⟩
  · have hcond := DistributedFileSystem.meetsContract_iff.1 h
    rcases hcond with hdir | hnone
    · exact absurd hdir (by decide +kernel)
    · exact absurd (hnone (ascii "b") (by decide) (by decide +kernel)) (by decide)
  · exact absurd ((LocalFileSystem.meetsContract_iff emptyDisk).1 h) (by decide)

end Dss.Fs
