import Dss.Dfs.NameNode
import Mathlib.Logic.Function.Basic

/-!
# The name node as a partial map

What the name node is for: it keeps a partial map from paths to files (`FileMap`),
in which a call creates a file where there is none, deletes one that is there, or
moves one to where there is none; any other call changes nothing, and returns
`false`. The name node does the same, call by call and with the same results
(`results_eq`), so what holds of the partial map holds of it:

* the path of a file is the one it is found at (`keyed_after`);
* a call succeeds exactly if it can, and changes the files it is about only;
* a file is moved along a chain of renames as it is (`files_renameChain`).
-/

namespace Dss.Dfs

open Dss.Lib Function

/-- The calls that are about files. -/
inductive FileCall
  | createFile (path : Bytes) (isDirectory : Bool) (now : TimePoint)
  | deleteFile (path : Bytes)
  | renameFile (oldPath newPath : Bytes) (now : TimePoint)
  | getMetadata (path : Bytes)
  deriving DecidableEq

/-- What a call returns. -/
inductive FileResult
  | done (success : Bool)
  | found (metadata : Option FileMetadata)

/-- A file under its new path. -/
def FileMetadata.moved (f : FileMetadata) (newPath : Bytes) (now : TimePoint) : FileMetadata :=
  { f with path := newPath, modifiedTime := now }

/-! ## The partial map -/

/-- The file at each path. -/
abbrev FileMap := Bytes → Option FileMetadata

namespace FileMap

variable (m : FileMap)

def step : FileCall → FileMap × FileResult
  | .createFile path isDirectory now =>
    match m path with
    | none => (update m path (some (NameNode.newMetadata path isDirectory now)), .done true)
    | some _ => (m, .done false)
  | .deleteFile path =>
    match m path with
    | none => (m, .done false)
    | some _ => (update m path none, .done true)
  | .renameFile oldPath newPath now =>
    match m oldPath, m newPath with
    | some f, none =>
      (update (update m oldPath none) newPath (some (f.moved newPath now)), .done true)
    | _, _ => (m, .done false)
  | .getMetadata path => (m, .found (m path))

/-- What the calls return, one after the other. -/
def results : FileMap → List FileCall → List FileResult
  | _, [] => []
  | m, call :: calls => (m.step call).2 :: results (m.step call).1 calls

/-- The path of every file is the one it is found at. -/
def Keyed : Prop := ∀ path f, m path = some f → f.path = path

variable {m}

theorem Keyed.update {path : Bytes} {v : Option FileMetadata} (h : Keyed m)
    (hv : ∀ f ∈ v, f.path = path) : Keyed (update m path v) := by
  intro q f hf
  by_cases hq : q = path
  · subst hq
    rw [update_self] at hf
    exact hv f hf
  · rw [update_of_ne hq] at hf
    exact h q f hf

theorem Keyed.step (h : Keyed m) (call : FileCall) : Keyed (m.step call).1 := by
  cases call with
  | createFile path isDirectory now =>
    rw [FileMap.step]
    split
    · exact h.update fun f hf => by rw [← Option.some.inj hf]; rfl
    · exact h
  | deleteFile path =>
    rw [FileMap.step]
    split
    · exact h
    · exact h.update (by simp)
  | renameFile oldPath newPath now =>
    rw [FileMap.step]
    split
    · exact (h.update (by simp)).update fun f hf => by rw [← Option.some.inj hf]; rfl
    · exact h
  | getMetadata path => exact h

end FileMap

/-! ## The name node -/

namespace NameNode

variable (n : NameNode)

/-- The files a name node knows. -/
def files : FileMap := n.metadata.lookup

def fileStep : FileCall → NameNode × FileResult
  | .createFile path isDirectory now =>
    let (n, created) := n.createFile path isDirectory now
    (n, .done created)
  | .deleteFile path =>
    let (n, deleted) := n.deleteFile path
    (n, .done deleted)
  | .renameFile oldPath newPath now =>
    let (n, renamed) := n.renameFile oldPath newPath now
    (n, .done renamed)
  | .getMetadata path => (n, .found (n.getMetadata path))

/-- What the calls return, one after the other. -/
def results : NameNode → List FileCall → List FileResult
  | _, [] => []
  | n, call :: calls => (n.fileStep call).2 :: results (n.fileStep call).1 calls

/-- A name node after the calls. -/
def afterFiles (calls : List FileCall) : NameNode :=
  calls.foldl (fun n call => (n.fileStep call).1) n

variable {n} {path oldPath newPath : Bytes} {isDirectory : Bool} {now : TimePoint}

theorem files_create (factor : ℕ) : (create factor).files = fun _ => none := by
  funext path
  exact Finmap.lookup_empty path

theorem mem_iff : path ∈ n.metadata ↔ n.files path ≠ none := by
  rw [files, Ne, Finmap.lookup_eq_none, not_not]

theorem files_insert (n : NameNode) (path : Bytes) (f : FileMetadata) :
    files { n with metadata := n.metadata.insert path f } = update n.files path (some f) := by
  funext q
  by_cases hq : q = path
  · subst hq
    rw [update_self]
    exact Finmap.lookup_insert _
  · rw [update_of_ne hq]
    exact Finmap.lookup_insert_of_ne _ hq

theorem files_erase (n : NameNode) (path : Bytes) :
    files { n with metadata := n.metadata.erase path } = update n.files path none := by
  funext q
  by_cases hq : q = path
  · subst hq
    rw [update_self]
    exact Finmap.lookup_erase q _
  · rw [update_of_ne hq]
    exact Finmap.lookup_erase_ne hq

/-- One call does to the files what it does to the partial map. -/
theorem fileStep_eq (n : NameNode) (call : FileCall) :
    (n.fileStep call).1.files = (n.files.step call).1 ∧
      (n.fileStep call).2 = (n.files.step call).2 := by
  cases call with
  | createFile path isDirectory now =>
    rw [fileStep, FileMap.step]
    cases hpath : n.files path with
    | none =>
      have hmem : path ∉ n.metadata := mt mem_iff.1 (not_not.2 hpath)
      rw [n.createFile_of_notMem hmem]
      exact ⟨files_insert n path _, rfl⟩
    | some f =>
      have hmem : path ∈ n.metadata := mem_iff.2 (by rw [hpath]; nofun)
      rw [n.createFile_of_mem hmem]
      exact ⟨rfl, rfl⟩
  | deleteFile path =>
    rw [fileStep, FileMap.step]
    cases hpath : n.files path with
    | none =>
      have hmem : path ∉ n.metadata := mt mem_iff.1 (not_not.2 hpath)
      rw [n.deleteFile_of_notMem hmem]
      exact ⟨rfl, rfl⟩
    | some f =>
      have hmem : path ∈ n.metadata := mem_iff.2 (by rw [hpath]; nofun)
      rw [n.deleteFile_of_mem hmem]
      exact ⟨files_erase n path, rfl⟩
  | renameFile oldPath newPath now =>
    rw [fileStep, FileMap.step]
    cases hold : n.files oldPath with
    | none =>
      have hmem : oldPath ∉ n.metadata := mt mem_iff.1 (not_not.2 hold)
      rw [n.renameFile_of_notMem hmem]
      exact ⟨rfl, rfl⟩
    | some f =>
      have hmem : oldPath ∈ n.metadata := mem_iff.2 (by rw [hold]; nofun)
      cases hnew : n.files newPath with
      | none =>
        rw [n.renameFile_eq hold (mt mem_iff.1 (not_not.2 hnew))]
        refine ⟨?_, rfl⟩
        exact (files_insert { n with metadata := n.metadata.erase oldPath } newPath _).trans
          (by rw [files_erase]; rfl)
      | some g =>
        rw [n.renameFile_of_mem hmem (mem_iff.2 (by rw [hnew]; nofun))]
        exact ⟨rfl, rfl⟩
  | getMetadata path => exact ⟨rfl, rfl⟩

/-- Whatever the calls, they return what they return on the partial map. -/
theorem results_eq (n : NameNode) (calls : List FileCall) :
    n.results calls = n.files.results calls := by
  induction calls generalizing n with
  | nil => rfl
  | cons call calls ih =>
    obtain ⟨hfiles, hresult⟩ := fileStep_eq n call
    rw [results, FileMap.results, ih, hfiles, hresult]

/-- In every state reached, the path of every file is the one it is found at. -/
theorem keyed_after (factor : ℕ) (calls : List FileCall) :
    FileMap.Keyed ((create factor).afterFiles calls).files := by
  induction calls using List.reverseRecOn with
  | nil =>
    rw [afterFiles, List.foldl_nil, files_create]
    exact nofun
  | append_singleton calls call ih =>
    rw [afterFiles, List.foldl_append, List.foldl_cons, List.foldl_nil, (fileStep_eq _ call).1]
    exact ih.step call

/-! ## Chains of renames -/

/-- Renames a file along a chain of paths, each at its time, as long as the renames
    succeed. -/
def renameChain (n : NameNode) (path : Bytes) : List (Bytes × TimePoint) → NameNode × Bool
  | [] => (n, true)
  | (newPath, now) :: chain =>
    match n.renameFile path newPath now with
    | (n, true) => renameChain n newPath chain
    | (n, false) => (n, false)

/-- The last path of a chain. -/
def chainEnd (path : Bytes) (chain : List (Bytes × TimePoint)) : Bytes :=
  (path :: chain.map Prod.fst).getLast (List.cons_ne_nil _ _)

/-- A rename that succeeds moves the file, and nothing else. -/
theorem renameFile_of_true (h : (n.renameFile oldPath newPath now).2 = true) :
    ∃ f, n.files oldPath = some f ∧ n.files newPath = none ∧
      (n.renameFile oldPath newPath now).1.files =
        update (update n.files oldPath none) newPath (some (f.moved newPath now)) := by
  obtain ⟨hfiles, hresult⟩ := fileStep_eq n (.renameFile oldPath newPath now)
  simp only [fileStep, FileMap.step] at hfiles hresult
  rw [h] at hresult
  cases hold : n.files oldPath with
  | none => simp [hold] at hresult
  | some f =>
    cases hnew : n.files newPath with
    | none => exact ⟨f, rfl, rfl, by simpa [hold, hnew] using hfiles⟩
    | some g => simp [hold, hnew] at hresult

/-- Along a chain of renames that succeed, all of a file but its path and the time
    of its modification stays as it was. -/
theorem files_renameChain {path : Bytes} {f : FileMetadata} {chain : List (Bytes × TimePoint)}
    (hf : n.files path = some f) (hpath : f.path = path)
    (h : (n.renameChain path chain).2 = true) :
    ∃ time, (n.renameChain path chain).1.files (chainEnd path chain) =
      some { f with path := chainEnd path chain, modifiedTime := time } := by
  induction chain generalizing n path f with
  | nil =>
    subst hpath
    exact ⟨f.modifiedTime, hf⟩
  | cons link chain ih =>
    obtain ⟨newPath, now⟩ := link
    rw [renameChain] at h ⊢
    cases hrename : n.renameFile path newPath now with
    | mk n' renamed =>
      cases renamed with
      | false =>
        rw [hrename] at h
        cases h
      | true =>
        rw [hrename] at h
        obtain ⟨g, hg, -, hfiles⟩ := renameFile_of_true (congrArg Prod.snd hrename)
        obtain rfl : f = g := Option.some.inj (hf.symm.trans hg)
        rw [hrename] at hfiles
        have hmoved : n'.files newPath = some (f.moved newPath now) := by
          rw [hfiles, update_self]
        obtain ⟨time, hchain⟩ := ih hmoved rfl h
        exact ⟨time, hchain⟩

/-! ## What the calls do -/

/-- The name node does what the partial map is for: a call succeeds exactly if
    it can, and changes the files it is about only. -/
structure RefinesFileMap (n : NameNode) : Prop where
  keyed : ∀ path f, n.files path = some f → f.path = path
  create : ∀ path isDirectory now,
    ((n.createFile path isDirectory now).2 = true ↔ n.files path = none) ∧
    (n.createFile path isDirectory now).1.files =
      if n.files path = none then
        update n.files path (some (newMetadata path isDirectory now))
      else n.files
  delete : ∀ path, ((n.deleteFile path).2 = true ↔ n.files path ≠ none) ∧
    (n.deleteFile path).1.files = update n.files path none
  rename : ∀ oldPath newPath now,
    ((n.renameFile oldPath newPath now).2 = true ↔
      n.files oldPath ≠ none ∧ n.files newPath = none) ∧
    ((n.renameFile oldPath newPath now).2 = true →
      ∃ f, n.files oldPath = some f ∧
        (n.renameFile oldPath newPath now).1.files newPath = some (f.moved newPath now) ∧
        (n.renameFile oldPath newPath now).1.files oldPath = none ∧
        ∀ path, path ≠ oldPath → path ≠ newPath →
          (n.renameFile oldPath newPath now).1.files path = n.files path) ∧
    ((n.renameFile oldPath newPath now).2 = false →
      (n.renameFile oldPath newPath now).1 = n)
  get : ∀ path, n.getMetadata path = n.files path
  chain : ∀ path f chain, n.files path = some f → (n.renameChain path chain).2 = true →
    ∃ time, (n.renameChain path chain).1.files (chainEnd path chain) =
      some { f with path := chainEnd path chain, modifiedTime := time }

theorem refinesFileMap_of_keyed (h : n.files.Keyed) : RefinesFileMap n where
  keyed := h
  create path isDirectory now := by
    obtain ⟨hfiles, hresult⟩ := fileStep_eq n (.createFile path isDirectory now)
    simp only [fileStep, FileMap.step] at hfiles hresult
    cases hpath : n.files path with
    | none => simpa [hpath] using And.intro hresult hfiles
    | some f => simpa [hpath] using And.intro hresult hfiles
  delete path := by
    obtain ⟨hfiles, hresult⟩ := fileStep_eq n (.deleteFile path)
    simp only [fileStep, FileMap.step] at hfiles hresult
    cases hpath : n.files path with
    | none =>
      have hsame : update n.files path none = n.files := by rw [← hpath, update_eq_self]
      simpa [hpath, hsame] using And.intro hresult hfiles
    | some f => simpa [hpath] using And.intro hresult hfiles
  rename oldPath newPath now := by
    refine ⟨?_, fun h => ?_, n.renameFile_fst_of_false⟩
    · obtain ⟨-, hresult⟩ := fileStep_eq n (.renameFile oldPath newPath now)
      simp only [fileStep, FileMap.step] at hresult
      cases hold : n.files oldPath with
      | none => simpa [hold] using hresult
      | some f => cases hnew : n.files newPath <;> simpa [hold, hnew] using hresult
    · obtain ⟨f, hold, hnew, hfiles⟩ := renameFile_of_true h
      have hne : oldPath ≠ newPath := by
        rintro rfl
        rw [hold] at hnew
        cases hnew
      refine ⟨f, hold, ?_, ?_, fun path hpath hpath' => ?_⟩
      · rw [hfiles, update_self]
      · rw [hfiles, update_of_ne hne, update_self]
      · rw [hfiles, update_of_ne hpath', update_of_ne hpath]
  get path := rfl
  chain path f chain hf := files_renameChain hf (h path f hf)

/-- A new name node returns what the empty partial map returns, whatever the
    calls, and does what the map is for in every state reached. -/
theorem refines_fileMap (factor : ℕ) (calls : List FileCall) :
    (create factor).results calls = FileMap.results (fun _ => none) calls ∧
      RefinesFileMap ((create factor).afterFiles calls) :=
  ⟨files_create factor ▸ results_eq (create factor) calls,
    refinesFileMap_of_keyed (keyed_after factor calls)⟩

end NameNode

end Dss.Dfs
