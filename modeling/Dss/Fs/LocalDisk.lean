import Dss.Lib.Stream
import Dss.Lib.UnorderedMap

/-!
# Local disks

What the distributed file system uses of `std::filesystem` and `std::ofstream` to
get at the local disk, of regular files and directories. The states of the disk
are any type, with the functions of the standard on them and what the standard
says of them (`LocalDisk`); a path is the string it is spelled with.

There is such a disk: the files and directories in memory (`memoryDisk`).
-/

namespace Dss.Fs

open Dss.Lib

/-- A local disk with the states `S`. What throws a `std::filesystem::filesystem_error`
    is `none`, and leaves the disk as it was. -/
structure LocalDisk (S : Type*) where
  /-- The contents of the regular file at a path. -/
  contents : S → Bytes → Option Bytes
  /-- `std::filesystem::exists`. -/
  pathExists : S → Bytes → Option Bool
  /-- `std::filesystem::remove`: whether there was something to remove. -/
  remove : S → Bytes → Option (Bool × S)
  /-- `std::ofstream(path)`: the disk with the file open, or `none` if
      `is_open()` is false. -/
  openTruncated : S → Bytes → Option S
  exists_of_contents : ∀ {s path c}, contents s path = some c → pathExists s path ≠ some false
  contents_of_remove : ∀ {s path removed s'}, remove s path = some (removed, s') →
    contents s' path = none
  contents_of_open : ∀ {s path s'}, openTruncated s path = some s' → contents s' path = some []

/-! ## A disk in memory -/

inductive LocalNode
  | file (contents : Bytes)
  | directory
  deriving DecidableEq, Repr

/-- The files and directories, by their paths. -/
abbrev MemoryDisk := UnorderedMap Bytes LocalNode

namespace MemoryDisk

variable (m : MemoryDisk)

def contents (path : Bytes) : Option Bytes :=
  match m.lookup path with
  | some (.file contents) => some contents
  | _ => none

/-- A directory is only removed if there is nothing in it. -/
def remove (path : Bytes) : Option (Bool × MemoryDisk) :=
  match m.lookup path with
  | none => some (false, m)
  | some (.file _) => some (true, m.erase path)
  | some .directory =>
    if ∃ path' ∈ m.keys, path ++ [slash] <+: path' then none else some (true, m.erase path)

/-- The path of the directory a path is in, empty for the current directory and
    for the root. -/
def parent (path : Bytes) : Bytes :=
  ((path.reverse.dropWhile (· ≠ slash)).drop 1).reverse

/-- The last component of a path, empty where the path is or ends with a slash. -/
def fileName (path : Bytes) : Bytes := (path.reverse.takeWhile (· ≠ slash)).reverse

/-- A file is only opened under a name, and in a directory that is there. -/
def openTruncated (path : Bytes) : Option MemoryDisk :=
  if fileName path = [] ∨ fileName path = ascii "." ∨ fileName path = ascii ".." then none
  else if m.lookup path = some .directory then none
  else if parent path ≠ [] ∧ m.lookup (parent path) ≠ some .directory then none
  else some (m.insert path (.file []))

end MemoryDisk

open MemoryDisk in
def memoryDisk : LocalDisk MemoryDisk where
  contents
  pathExists m path := some (path ∈ m)
  remove
  openTruncated
  exists_of_contents {m path c} h := by
    rw [contents] at h
    split at h
    next hfile => simpa using Finmap.mem_of_lookup_eq_some hfile
    next => cases h
  contents_of_remove {m path removed m'} h := by
    rw [remove] at h
    split at h
    next hnone =>
      obtain ⟨-, rfl⟩ := Prod.mk.inj (Option.some.inj h)
      rw [contents, hnone]
    next =>
      obtain ⟨-, rfl⟩ := Prod.mk.inj (Option.some.inj h)
      rw [contents, Finmap.lookup_erase]
    next =>
      split at h
      next => cases h
      next =>
        obtain ⟨-, rfl⟩ := Prod.mk.inj (Option.some.inj h)
        rw [contents, Finmap.lookup_erase]
  contents_of_open {m path m'} h := by
    rw [openTruncated] at h
    split at h
    next => cases h
    next =>
      split at h
      next => cases h
      next =>
        split at h
        next => cases h
        next =>
          obtain rfl := Option.some.inj h
          rw [contents, Finmap.lookup_insert]

end Dss.Fs
