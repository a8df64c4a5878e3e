import Dss.Fs.FileTree
import Dss.Fs.ListFiles
import Mathlib.Data.Fintype.EquivFin

/-!
# Listing a local directory

The local file system lists a directory by going through its entries and listing each
directory among them, where a symbolic link to a directory is taken for a directory. It
keeps no account of the directories it has been to. So on a disk with a finite tree of
files (`TreeDisk`), every regular file below the directory is listed once, exactly if the
links lead away from it (`listsOnce_iff`).
-/

namespace Dss.Fs

open Dss.Lib

/-- `path / name`. -/
def appendName (path name : Bytes) : Bytes :=
  if path = [] ∨ path.getLast? = some slash then path ++ name else path ++ slash :: name

/-- What `boost::filesystem` says of the paths of a disk with a tree of files: links are
    followed, and a directory has each of its entries once. -/
structure TreeDisk {ι : Type} (tree : FileTree ι) extends BoostFilesystem where
  /-- The directory or regular file a path stands for, all links followed. -/
  resolve : Bytes → Option ι
  isDirectory_iff : ∀ {path}, isDirectory path = true ↔
    ∃ d, resolve path = some d ∧ (tree.node d).isDirectory = true
  entries_perm : ∀ {path d}, resolve path = some d →
    (entries path).Perm ((tree.node d).entries.map fun e => appendName path e.1)
  resolve_appendName : ∀ {path d e}, resolve path = some d → e ∈ (tree.node d).entries →
    resolve (appendName path e.1) = e.2.leadsTo

/-- What a listing of local files goes through. -/
def BoostFilesystem.branching (boost : BoostFilesystem) : Branching Bytes where
  inner := boost.isDirectory
  next := boost.entries

theorem LocalFileSystem.getDirectoryFiles_eq_expand (boost : BoostFilesystem) (fuel : ℕ)
    (path : Bytes) : getDirectoryFiles boost fuel path = boost.branching.expand fuel path := by
  induction fuel generalizing path with
  | zero => rfl
  | succ fuel ih =>
    rw [getDirectoryFiles, Branching.expand]
    simp only [ih]
    rfl

/-- A listing that comes to an end. -/
theorem LocalFileSystem.exists_listFiles_iff {boost : BoostFilesystem} {path : Bytes}
    {files : List Bytes} : (∃ fuel, listFiles boost fuel path = some files) ↔
      boost.branching.Yields path files := by
  simp only [Branching.Yields, listFiles, isDirectory, getDirectoryFiles_eq_expand]
  change _ ↔ if boost.isDirectory path = true then _ else _
  split_ifs
  · rfl
  · simp [eq_comm]

namespace TreeDisk

variable {ι : Type} {tree : FileTree ι} {disk : TreeDisk tree} {path : Bytes} {d : ι}
  {files : List Bytes}

/-- What is gone through are the paths of what is found if links are followed. -/
theorem cover (disk : TreeDisk tree) :
    Branching.Cover disk.toBoostFilesystem.branching tree.branching disk.resolve where
  inner path := by
    rw [Bool.eq_iff_iff, FileTree.inner_iff]
    exact disk.isDirectory_iff
  next path h := by
    obtain ⟨d, hd, -⟩ := disk.isDirectory_iff.1 h
    refine ((disk.entries_perm hd).map disk.resolve).trans ?_
    rw [List.map_map, hd]
    refine .of_eq (List.map_congr_left fun e he => ?_)
    exact disk.resolve_appendName hd he

/-- On a finite disk a listing comes to an end exactly if no link leads back to the
    directory it is in. -/
theorem exists_listFiles_iff [Finite ι] (hd : disk.resolve path = some d) :
    (∃ fuel files, LocalFileSystem.listFiles disk.toBoostFilesystem fuel path = some files) ↔
      ∀ u v, tree.Reaches d u → tree.LinksTo u v → ¬tree.Reaches v u := by
  rw [exists_comm]
  simp only [LocalFileSystem.exists_listFiles_iff]
  rw [Branching.exists_yields_iff, disk.cover.acc_iff, hd]
  exact FileTree.acc_iff_links

/-- No directory is listed. -/
theorem isDirectory_of_mem (h : disk.toBoostFilesystem.branching.Yields path files)
    {file : Bytes} (hfile : file ∈ files) : disk.isDirectory file = false :=
  Bool.eq_false_iff.2 (h.mem_iff.1 hfile).1

variable [DecidableEq ι]

/-- The paths listed that stand for `f`. -/
def timesListed (disk : TreeDisk tree) (f : ι) (files : List Bytes) : ℕ :=
  files.countP fun file => disk.resolve file = some f

theorem timesListed_eq {l : List (Option ι)} {f : ι} (h : (files.map disk.resolve).Perm l) :
    disk.timesListed f files = l.count (some f) := by
  rw [← h.count_eq, List.count_eq_countP, List.countP_map, timesListed]
  refine List.countP_congr fun file _ => ?_
  rw [decide_eq_true_iff, Function.comp_apply, beq_iff_eq]

/-- In a listing that comes to an end, every regular file below the directory is listed
    once exactly if no link leads to one. -/
theorem timesListed_eq_one_iff (hd : disk.resolve path = some d)
    (h : disk.toBoostFilesystem.branching.Yields path files) :
    (∀ f, tree.IsFile f → tree.Below d f → disk.timesListed f files = 1) ↔
      ∀ u v, tree.Reaches d u → tree.LinksTo u v → ∀ f, tree.IsFile f → tree.Below d f →
        ¬tree.Reaches v f := by
  obtain ⟨l, hl, hperm⟩ := disk.cover.yields h
  rw [hd] at hl
  rw [← FileTree.count_eq_one_iff hl]
  simp only [timesListed_eq hperm]

/-- Of `path`, the directory `d`, every regular file below is listed once, and no
    directory. -/
def ListsOnce (disk : TreeDisk tree) (path : Bytes) (d : ι) : Prop :=
  ∃ fuel files, LocalFileSystem.listFiles disk.toBoostFilesystem fuel path = some files ∧
    (∀ f, tree.IsFile f → tree.Below d f → disk.timesListed f files = 1) ∧
      ∀ file ∈ files, disk.isDirectory file = false

end TreeDisk

/-- A local directory is listed as it should exactly if the links met lead neither back to
    the directory they are in, nor to a regular file below the directory that is listed. -/
theorem listsOnce_iff {ι : Type} [DecidableEq ι] [Finite ι] {tree : FileTree ι}
    (disk : TreeDisk tree) (path : Bytes) (d : ι) (hd : disk.resolve path = some d) :
    disk.ListsOnce path d ↔ tree.LinksLeadAway d := by
  constructor
  · rintro ⟨fuel, files, hfiles, hone, -⟩ u v hu hlink
    have hyields := LocalFileSystem.exists_listFiles_iff.1 ⟨fuel, hfiles⟩
    exact ⟨(TreeDisk.exists_listFiles_iff hd).1 ⟨fuel, files, hfiles⟩ u v hu hlink,
      (TreeDisk.timesListed_eq_one_iff hd hyields).1 hone u v hu hlink⟩
  · intro h
    obtain ⟨fuel, files, hfiles⟩ :=
      (TreeDisk.exists_listFiles_iff hd).2 fun u v hu hlink => (h u v hu hlink).1
    have hyields := LocalFileSystem.exists_listFiles_iff.1 ⟨fuel, hfiles⟩
    have hone := (TreeDisk.timesListed_eq_one_iff hd hyields).2
      fun u v hu hlink => (h u v hu hlink).2
    exact ⟨fuel, files, hfiles, hone, fun _ => TreeDisk.isDirectory_of_mem hyields⟩

/-- The disk of a tree, given what its paths stand for. -/
def TreeDisk.ofResolve {ι : Type} (tree : FileTree ι) (resolve : Bytes → Option ι)
    (hresolve : ∀ {path d e}, resolve path = some d → e ∈ (tree.node d).entries →
      resolve (appendName path e.1) = e.2.leadsTo) : TreeDisk tree where
  pathExists path := (resolve path).isSome
  isDirectory path := tree.branching.inner (resolve path)
  entries path := (resolve path).elim [] fun d =>
    (tree.node d).entries.map fun e => appendName path e.1
  exists_of_isDirectory h := by
    obtain ⟨d, hd, -⟩ := FileTree.inner_iff.1 h
    rw [hd, Option.isSome_some]
  resolve := resolve
  isDirectory_iff := FileTree.inner_iff
  entries_perm hd := by rw [hd, Option.elim_some]
  resolve_appendName := hresolve

/-- A directory with a file and a link to another directory, which is empty. -/
def linkAwayNode : Fin 3 → TreeNode (Fin 3)
  | 0 => .directory [(ascii "a", .node 1), (ascii "l", .link (some 2))]
  | 1 => .regularFile
  | 2 => .directory []

theorem mem_linkAwayNode {d : Fin 3} {e : Bytes × TreeEntry (Fin 3)} :
    e ∈ (linkAwayNode d).entries ↔
      d = 0 ∧ (e = (ascii "a", .node 1) ∨ e = (ascii "l", .link (some 2))) := by
  match d with
  | 0 | 1 | 2 => simp [linkAwayNode, TreeNode.entries]

def linkAway : FileTree (Fin 3) where
  node := linkAwayNode
  names_nodup := by decide
  parent_unique h h' := by
    simp only [mem_linkAwayNode, Prod.mk.injEq, reduceCtorEq, and_false, or_false] at h h'
    exact ⟨h.1.trans h'.1.symm, h.2.1.trans h'.2.1.symm⟩
  acyclic d h := by
    obtain ⟨n, ⟨name, hmem⟩, -⟩ := Relation.TransGen.head'_iff.1 h
    obtain ⟨n', -, ⟨name', hmem'⟩⟩ := Relation.TransGen.tail'_iff.1 h
    simp only [mem_linkAwayNode] at hmem hmem'
    simp [hmem.1] at hmem'

def resolveLinkAway (path : Bytes) : Option (Fin 3) :=
  if path = ascii "/d" then some 0
  else if path = ascii "/d/a" then some 1
  else if path = ascii "/d/l" ∨ path = ascii "/e" then some 2
  else none

/-- The disk with the two directories in its root. -/
def linkAwayDisk : TreeDisk linkAway := .ofResolve linkAway resolveLinkAway <| by
  intro path d e hd he
  obtain ⟨rfl, hentry⟩ := mem_linkAwayNode.1 he
  have hpath : path = ascii "/d" := by
    rw [resolveLinkAway] at hd
    split_ifs at hd with hpath
    · exact hpath
    all_goals cases hd
  subst hpath
  rcases hentry with rfl | rfl <;> decide

/-- A link to another directory does no harm. -/
theorem listsOnce_iff_linkAway : linkAwayDisk.ListsOnce (ascii "/d") 0 := by
  refine (listsOnce_iff linkAwayDisk (ascii "/d") 0 (by decide)).2 ?_
  -- nothing is found in the directory the link leads to
  have hreaches : ∀ {n}, linkAway.Reaches 2 n → n = 2 := by
    intro n h
    rcases h.cases_head with rfl | ⟨c, ⟨name, hmem⟩ | ⟨name, hmem⟩, -⟩
    · rfl
    all_goals cases hmem
  rintro u v - ⟨name, hmem⟩
  have hentry : u = 0 ∧ name = ascii "l" ∧ v = 2 := by
    simpa [linkAway, mem_linkAwayNode] using hmem
  obtain ⟨rfl, -, rfl⟩ := hentry
  refine ⟨fun h => absurd (hreaches h) (by decide), fun f hf _ h => ?_⟩
  obtain rfl := hreaches h
  cases hf

/-- The paths of a directory with a link to itself. -/
def selfLinkPath : ℕ → Bytes
  | 0 => ascii "/d"
  | k + 1 => selfLinkPath k ++ ascii "/l"

theorem appendName_selfLinkPath (k : ℕ) :
    appendName (selfLinkPath k) (ascii "l") = selfLinkPath (k + 1) := by
  rw [appendName, if_neg]
  · rfl
  · cases k with
    | zero => decide
    | succ k =>
      simp [selfLinkPath, ascii, slash]
      decide

theorem length_selfLinkPath (k : ℕ) : (selfLinkPath k).length = 2 * k + 2 := by
  induction k with
  | zero => rfl
  | succ k ih =>
    rw [selfLinkPath, List.length_append, ih]
    rfl

def resolveSelfLink (path : Bytes) : Option Unit :=
  if path = selfLinkPath (path.length / 2 - 1) then some () else none

theorem resolveSelfLink_iff {path : Bytes} {d : Unit} :
    resolveSelfLink path = some d ↔ ∃ k, path = selfLinkPath k := by
  rw [resolveSelfLink]
  constructor
  · intro h
    split_ifs at h with hpath
    exact ⟨_, hpath⟩
  · rintro ⟨k, rfl⟩
    rw [length_selfLinkPath, if_pos (by congr 1; omega)]

def selfLink : FileTree Unit where
  node _ := .directory [(ascii "l", .link (some ()))]
  names_nodup := by decide
  parent_unique := by simp [TreeNode.entries]
  acyclic d h := by
    obtain ⟨n, ⟨name, hmem⟩, -⟩ := Relation.TransGen.head'_iff.1 h
    cases List.mem_singleton.1 hmem

def selfLinkDisk : TreeDisk selfLink := .ofResolve selfLink resolveSelfLink <| by
  intro path d e hd he
  obtain ⟨k, rfl⟩ := resolveSelfLink_iff.1 hd
  obtain rfl := List.mem_singleton.1 he
  exact resolveSelfLink_iff.2 ⟨k + 1, appendName_selfLinkPath k⟩

/-- The listing of the directory does not come to an end. -/
theorem not_listsOnce_selfLink : ¬selfLinkDisk.ListsOnce (ascii "/d") () := by
  rintro ⟨fuel, files, hfiles, -⟩
  have hd : selfLinkDisk.resolve (ascii "/d") = some () := resolveSelfLink_iff.2 ⟨0, rfl⟩
  exact (TreeDisk.exists_listFiles_iff hd).1 ⟨fuel, files, hfiles⟩ () () .refl
    ⟨ascii "l", List.mem_singleton_self _⟩ .refl

end Dss.Fs
