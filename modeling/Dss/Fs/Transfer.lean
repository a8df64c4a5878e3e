import Dss.Fs.Operations

/-!
# Moving a local file into the distributed file system

`move_from_local` copies a local file and then removes it. The copy creates an
entry without data, while the removal is real: of a file that is not empty nothing
is left if the move succeeds. So its contents are kept (`KeepsContents`) only if
the file is empty, or the move fails (`keepsContents_iff`).
-/

namespace Dss.Fs

open Dss.Lib Dss.Dfs

variable {S : Type*} (disk : LocalDisk S) (w : Stores S) (src dst c : Bytes) (now : TimePoint)

/-- The distributed file system has `c` under `dst`: the entry has its size, it is
    what is read from the data nodes, and what a copy leaves on the local disk. -/
structure Records : Prop where
  entry : ∃ metadata, w.fs.nameNode.metadata.lookup dst = some metadata ∧
    metadata.size.toNat = c.length ∧
    metadata.blocks.flatMap DistributedFileSystem.readDataFromNodes = c
  copied : ∀ path, (w.copyToLocal disk dst path).2 = true →
    disk.contents (w.copyToLocal disk dst path).1.localDisk path = some c

/-- The states during a move: before it, after the copy, and after it. -/
def statesDuring : List (Stores S) :=
  [w, (w.copyFromLocal disk src dst now).1, (w.moveFromLocal disk src dst now).1]

/-- The contents `c` of the local file `src` are recorded by a move that succeeds,
    and are in one of the two file systems all the time. -/
structure KeepsContents : Prop where
  recorded : (w.moveFromLocal disk src dst now).2 = true →
    Records disk (w.moveFromLocal disk src dst now).1 dst c
  held : ∀ w' ∈ statesDuring disk w src dst now,
    disk.contents w'.localDisk src = some c ∨ Records disk w' dst c

variable {disk w src dst c now}

/-- A new file has the contents of an empty file. -/
theorem records_nil {s : S} : Records disk ⟨(w.withNewFile dst now).fs, s⟩ dst [] where
  entry := ⟨_, Finmap.lookup_insert _, rfl, rfl⟩
  copied path h := by
    obtain ⟨-, localDisk, -, -, hopen, heq⟩ := Stores.of_copyToLocal h
    rw [heq]
    exact disk.contents_of_open hopen

/-- A new file has no other contents. -/
theorem Records.eq_nil {s : S} (h : Records disk ⟨(w.withNewFile dst now).fs, s⟩ dst c) :
    c = [] := by
  obtain ⟨metadata, hlookup, -, hdata⟩ := h.entry
  obtain rfl := Option.some.inj ((Finmap.lookup_insert _).symm.trans hlookup)
  exact hdata.symm

/-- The copy leaves the local disk as it is. -/
theorem localDisk_copyFromLocal :
    (w.copyFromLocal disk src dst now).1.localDisk = w.localDisk := by
  rw [Stores.copyFromLocal_eq]
  split <;> rfl

/-- So does a move that fails. -/
theorem localDisk_moveFromLocal (h : (w.moveFromLocal disk src dst now).2 = false) :
    (w.moveFromLocal disk src dst now).1.localDisk = w.localDisk := by
  rw [Stores.moveFromLocal_eq] at h ⊢
  split at h
  next hcond =>
    rw [if_pos hcond]
    cases hremove : disk.remove w.localDisk src with
    | some result =>
      rw [hremove] at h
      cases h
    | none => rfl
  next hcond => rw [if_neg hcond]

/-- A move succeeds exactly if there is something to move, no entry where it is
    moved to, and it can be removed. -/
theorem moveFromLocal_eq_true : (w.moveFromLocal disk src dst now).2 = true ↔
    disk.pathExists w.localDisk src = some true ∧ dst ∉ w.fs.nameNode.metadata ∧
      disk.remove w.localDisk src ≠ none := by
  rw [Stores.moveFromLocal_eq]
  split
  next hcond => cases hremove : disk.remove w.localDisk src <;> simp [hcond]
  next hcond => simp only [Bool.false_eq_true, false_iff]; tauto

/-- A move that succeeds leaves a new file, and removes the local one. -/
theorem moveFromLocal_of_true (h : (w.moveFromLocal disk src dst now).2 = true) :
    ∃ s, (w.moveFromLocal disk src dst now).1 = ⟨(w.withNewFile dst now).fs, s⟩ ∧
      disk.contents s src = none := by
  rw [Stores.moveFromLocal_eq] at h ⊢
  split at h
  next hcond =>
    rw [if_pos hcond]
    cases hremove : disk.remove w.localDisk src with
    | some result => exact ⟨result.2, rfl, disk.contents_of_remove hremove⟩
    | none =>
      rw [hremove] at h
      cases h
  next => cases h

/-- Of a file that is not empty nothing is left after a move that succeeds. -/
theorem not_held_of_true (h : (w.moveFromLocal disk src dst now).2 = true) (hc : c ≠ []) :
    ¬(disk.contents (w.moveFromLocal disk src dst now).1.localDisk src = some c ∨
      Records disk (w.moveFromLocal disk src dst now).1 dst c) := by
  obtain ⟨s, hs, hnone⟩ := moveFromLocal_of_true h
  rw [hs]
  rintro (hlocal | hrecords)
  · exact absurd (hnone.symm.trans hlocal) (by simp)
  · exact hc hrecords.eq_nil

/-- A move keeps the contents of a local file exactly if the file is empty or the
    move fails: there is an entry already, or the local file can't be looked up or
    removed. -/
theorem keepsContents_iff (hsrc : disk.contents w.localDisk src = some c) :
    KeepsContents disk w src dst c now ↔
      c = [] ∨ dst ∈ w.fs.nameNode.metadata ∨ disk.pathExists w.localDisk src = none ∨
        disk.remove w.localDisk src = none := by
  constructor
  · intro h
    by_contra hcond
    simp only [not_or] at hcond
    obtain ⟨hc, hdst, hexists, hremove⟩ := hcond
    have htrue : disk.pathExists w.localDisk src = some true := by
      cases hres : disk.pathExists w.localDisk src with
      | none => exact absurd hres hexists
      | some there =>
        cases there with
        | false => exact absurd hres (disk.exists_of_contents hsrc)
        | true => rfl
    have hmove : (w.moveFromLocal disk src dst now).2 = true :=
      moveFromLocal_eq_true.2 ⟨htrue, hdst, hremove⟩
    exact not_held_of_true hmove hc (h.held _ (by simp [statesDuring]))
  · intro hcond
    have hkept : ∀ w' : Stores S, w'.localDisk = w.localDisk →
        disk.contents w'.localDisk src = some c ∨ Records disk w' dst c :=
      fun w' hw' => .inl (hw' ▸ hsrc)
    have hcopy := hkept (w.copyFromLocal disk src dst now).1 localDisk_copyFromLocal
    cases hmove : (w.moveFromLocal disk src dst now).2 with
    | false =>
      refine ⟨fun htrue => by simp [hmove] at htrue, ?_⟩
      simp only [statesDuring, List.forall_mem_cons]
      exact ⟨hkept _ rfl, hcopy, hkept _ (localDisk_moveFromLocal hmove), by simp⟩
    | true =>
      obtain ⟨htrue, hdst, hremove⟩ := moveFromLocal_eq_true.1 hmove
      obtain rfl : c = [] := by simpa [hdst, htrue, hremove] using hcond
      obtain ⟨s, hs, -⟩ := moveFromLocal_of_true hmove
      have hrecords : Records disk (w.moveFromLocal disk src dst now).1 dst [] := hs ▸ records_nil
      refine ⟨fun _ => hrecords, ?_⟩
      simp only [statesDuring, List.forall_mem_cons]
      exact ⟨hkept _ rfl, hcopy, .inr hrecords, by simp⟩

/-- A new distributed file system, and a local file with the given text. -/
def newStores (text : String) : Stores MemoryDisk where
  fs := .newFileSystem
  localDisk := (∅ : MemoryDisk).insert (ascii "f") (.file (ascii text))

/-- The text of a file is gone after the move. -/
theorem not_keepsContents_text :
    let w := newStores "text"
    memoryDisk.contents w.localDisk (ascii "f") = some (ascii "text") ∧
      (w.moveFromLocal memoryDisk (ascii "f") (ascii "g") 0).2 = true ∧
      ¬KeepsContents memoryDisk w (ascii "f") (ascii "g") (ascii "text") 0 := by
  intro w
  have hmove : (w.moveFromLocal memoryDisk (ascii "f") (ascii "g") 0).2 = true := by
    decide +kernel
  refine ⟨by decide +kernel, hmove, fun h => ?_⟩
  exact not_held_of_true hmove (by decide) (h.held _ (by simp [statesDuring]))

/-- An empty file is moved. -/
theorem keepsContents_iff_empty :
    let w := newStores ""
    memoryDisk.contents w.localDisk (ascii "f") = some [] ∧
      (w.moveFromLocal memoryDisk (ascii "f") (ascii "g") 0).2 = true ∧
      KeepsContents memoryDisk w (ascii "f") (ascii "g") [] 0 := by
  intro w
  have hsrc : memoryDisk.contents w.localDisk (ascii "f") = some [] := by decide +kernel
  exact ⟨hsrc, by decide +kernel, (keepsContents_iff hsrc).2 (.inl rfl)⟩

end Dss.Fs
