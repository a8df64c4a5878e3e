import Dss.Lib.Decimal
import Dss.Lib.Run
import Mathlib.Data.Finset.Insert

/-!
# Locks of the local file system

`local_file_system::lock` and `release` by any number of clients on any paths. The
lock of a path is a file, named by the hash of the path, in a directory for lock
files. It is created whether it is there or not, and removed whoever asks for it.

`lock` then writes the hash to the stream that `create` has returned. The buffer
of this stream is a local variable of `create` and is gone by then, so the
behaviour of the write is undefined, in every call of `lock`: it may end the
program, or do anything to the files. What it does is a part of the call here
(`LockCall.lock`), and nothing is known of it. Only where it returns and leaves
the lock files alone (`Harmless`) is there a lock at all.

Even then the locks exclude each other only as long as every call is made when
nobody else holds the path or another path with its hash (`locks_exclude`); any
other call leads to a violation, in one step more (`violates_of_contended`).

The hash is any function. Of the lock directory, which exists, only the files are
modelled that are in it; what is in them is never read.
-/

namespace Dss.Fs.LocalLocks

open Dss.Lib

variable (hash : Bytes → UInt64) (tempPath : Bytes)

def getHashFor (path : Bytes) : UInt64 := hash path

def getLockFilePathFor (pathHash : UInt64) : Bytes :=
  tempPath ++ ascii "/dcs/" ++ decimal pathHash.toNat ++ ascii ".lock"

/-- The file that is the lock of a path. -/
def lockFile (path : Bytes) : Bytes := getLockFilePathFor tempPath (getHashFor hash path)

/-- `create`: the file is there afterwards, be it new or truncated. The buffer
    of the stream it returns has been destroyed. -/
def create (files : Finset Bytes) (path : Bytes) : Finset Bytes := insert path files

/-- `remove`: whether there was a file to remove. -/
def remove (files : Finset Bytes) (path : Bytes) : Finset Bytes × Bool :=
  (files.erase path, path ∈ files)

/-- `lock(path, false)`: the lock file is created, and the hash is written through
    the destroyed buffer. The behaviour of this `write` is undefined: it makes
    any files of those there are, or does not return. -/
def lock (write : Finset Bytes → Option (Finset Bytes)) (files : Finset Bytes) (path : Bytes) :
    Option (Finset Bytes) :=
  write (create files (lockFile hash tempPath path))

/-- `release`, or the text of the `core::io_error` it throws. -/
def release (files : Finset Bytes) (path : Bytes) : Except Bytes (Finset Bytes) :=
  let lockFilePath := lockFile hash tempPath path
  if lockFilePath ∉ files then .error (ascii "Given target not held as lock")
  else
    match remove files lockFilePath with
    | (_, false) => .error (ascii "Can't remove lock file: " ++ lockFilePath)
    | (files, true) => .ok files

/-- The lock directory and its clients `C`: the files in it, and the paths the
    clients have locked and have not released since. -/
structure Locks (C : Type*) where
  files : Finset Bytes
  held : Finset (C × Bytes)

inductive LockCall (C : Type*)
  /-- A call of `lock`, with what its write happens to do. -/
  | lock (client : C) (path : Bytes) (write : Finset Bytes → Option (Finset Bytes))
  | release (client : C) (path : Bytes)

namespace LockCall

variable {C : Type*}

def client : LockCall C → C
  | lock client _ _ | release client _ => client

def path : LockCall C → Bytes
  | lock _ path _ | release _ path => path

end LockCall

variable {C : Type*} {s t u : Locks C} {call : LockCall C} {calls : List (LockCall C)} {c c' : C}
  {path path' : Bytes} {dir files : Finset Bytes} {write : Finset Bytes → Option (Finset Bytes)}

/-- A call that returns or throws. A client whose release throws still holds what
    it held. -/
def step [DecidableEq C] (s : Locks C) : LockCall C → Option (Locks C)
  | .lock client path write =>
    (lock hash tempPath write s.files path).map fun files =>
      ⟨files, insert (client, path) s.held⟩
  | .release client path =>
    match release hash tempPath s.files path with
    | .error _ => some s
    | .ok files => some ⟨files, s.held.erase (client, path)⟩

/-! ## What the locks are for -/

/-- No two clients hold a path. -/
def Exclusive (s : Locks C) : Prop :=
  ∀ path c c', (c, path) ∈ s.held → (c', path) ∈ s.held → c = c'

/-- The call is a successful release that removes the lock held on another path. -/
def RemovesOther (s : Locks C) (call : LockCall C) : Prop :=
  ∃ client path files, call = .release client path ∧
    release hash tempPath s.files path = .ok files ∧
    ∃ c' path', (c', path') ∈ s.held ∧ path' ≠ path ∧
      lockFile hash tempPath path' ∈ s.files ∧ lockFile hash tempPath path' ∉ files

/-- The write of the call returns, and the lock files are as `create` has left
    them. -/
def Harmless (s : Locks C) : LockCall C → Prop
  | .lock _ path write =>
    lock hash tempPath write s.files path = some (create s.files (lockFile hash tempPath path))
  | .release _ _ => True

/-- Nobody else holds the path of the call, and nobody holds another one with its
    hash. -/
def Uncontended (s : Locks C) (call : LockCall C) : Prop :=
  ∀ c' path', (c', path') ∈ s.held → hash path' = hash call.path →
    c' = call.client ∧ path' = call.path

/-! ## Lock files -/

variable {hash tempPath}

/-- Two paths have the same lock file exactly if they have the same hash. -/
theorem lockFile_inj :
    lockFile hash tempPath path = lockFile hash tempPath path' ↔ hash path = hash path' := by
  simp only [lockFile, getLockFilePathFor, getHashFor]
  constructor
  · intro h
    have hdecimal := List.append_cancel_left (List.append_cancel_right h)
    have hvalue := congrArg digitsValue hdecimal
    rw [digitsValue_decimal, digitsValue_decimal] at hvalue
    exact UInt64.toNat_inj.1 hvalue
  · intro h
    rw [h]

/-- A release succeeds exactly if the lock file is there, and removes it. -/
theorem release_eq_ok : release hash tempPath dir path = .ok files ↔
    lockFile hash tempPath path ∈ dir ∧ files = dir.erase (lockFile hash tempPath path) := by
  rw [release]
  by_cases h : lockFile hash tempPath path ∈ dir
  · simp [h, remove, eq_comm]
  · simp [h]

/-- A write that leaves everything as it is. -/
theorem harmless_some (s : Locks C) (c : C) (path : Bytes) :
    Harmless hash tempPath s (.lock c path some) := rfl

variable [DecidableEq C]

theorem step_lock (h : Harmless hash tempPath s (.lock c path write)) :
    step hash tempPath s (.lock c path write) =
      some ⟨insert (lockFile hash tempPath path) s.files, insert (c, path) s.held⟩ := by
  rw [step, show lock hash tempPath write s.files path = _ from h]
  rfl

theorem step_release_of_mem (h : lockFile hash tempPath path ∈ s.files) :
    step hash tempPath s (.release c path) =
      some ⟨s.files.erase (lockFile hash tempPath path), s.held.erase (c, path)⟩ := by
  rw [step, release_eq_ok.2 ⟨h, rfl⟩]

theorem step_release_of_notMem (h : lockFile hash tempPath path ∉ s.files) :
    step hash tempPath s (.release c path) = some s := by
  have herror : release hash tempPath s.files path =
      .error (ascii "Given target not held as lock") := if_pos h
  rw [step, herror]

/-! ## Calls without contention -/

variable (hash tempPath) in
/-- The paths held have lock files, each a different one. -/
structure Sound (s : Locks C) : Prop where
  unique : ∀ {c c' path path'}, (c, path) ∈ s.held → (c', path') ∈ s.held →
    hash path = hash path' → c = c' ∧ path = path'
  present : ∀ {c path}, (c, path) ∈ s.held → lockFile hash tempPath path ∈ s.files

/-- A call without contention keeps the lock files apart. -/
theorem Sound.step (h : Sound hash tempPath s) (hharmless : Harmless hash tempPath s call)
    (hfree : Uncontended hash s call) (hstep : step hash tempPath s call = some t) :
    Sound hash tempPath t := by
  cases call with
  | lock client path write =>
    rw [step_lock hharmless, Option.some.injEq] at hstep
    subst hstep
    constructor
    · intro c c' path₁ path₂ h₁ h₂ heq
      simp only [Finset.mem_insert, Prod.mk.injEq] at h₁ h₂
      rcases h₁ with ⟨rfl, rfl⟩ | h₁ <;> rcases h₂ with ⟨rfl, rfl⟩ | h₂
      · exact ⟨rfl, rfl⟩
      · obtain ⟨hc, hp⟩ := hfree _ _ h₂ heq.symm
        exact ⟨hc.symm, hp.symm⟩
      · exact hfree _ _ h₁ heq
      · exact h.unique h₁ h₂ heq
    · intro c path' hmem
      simp only [Finset.mem_insert, Prod.mk.injEq] at hmem
      rcases hmem with ⟨rfl, rfl⟩ | hmem
      · exact Finset.mem_insert_self _ _
      · exact Finset.mem_insert_of_mem (h.present hmem)
  | release client path =>
    by_cases hfile : lockFile hash tempPath path ∈ s.files
    · rw [step_release_of_mem hfile, Option.some.injEq] at hstep
      subst hstep
      constructor
      · intro c c' path₁ path₂ h₁ h₂ heq
        exact h.unique (Finset.mem_of_mem_erase h₁) (Finset.mem_of_mem_erase h₂) heq
      · intro c path' hmem
        obtain ⟨hne, hmem⟩ := Finset.mem_erase.1 hmem
        refine Finset.mem_erase.2 ⟨fun heq => ?_, h.present hmem⟩
        -- only the lock released has this file
        obtain ⟨rfl, rfl⟩ := hfree _ _ hmem (lockFile_inj.1 heq)
        exact hne rfl
    · rw [step_release_of_notMem hfile, Option.some.injEq] at hstep
      exact hstep ▸ h

omit [DecidableEq C] in
theorem Sound.exclusive (h : Sound hash tempPath s) : Exclusive s :=
  fun _ _ _ hc hc' => (h.unique hc hc' rfl).1

omit [DecidableEq C] in
/-- A release without contention only removes the lock of its path. -/
theorem not_removesOther (hfree : Uncontended hash s call) :
    ¬RemovesOther hash tempPath s call := by
  rintro ⟨client, path, files, rfl, hrelease, c', path', hmem, hne, hthere, hgone⟩
  obtain ⟨-, rfl⟩ := release_eq_ok.1 hrelease
  have heq : lockFile hash tempPath path' = lockFile hash tempPath path := by
    by_contra hfile
    exact hgone (Finset.mem_erase.2 ⟨hfile, hthere⟩)
  exact hne (hfree _ _ hmem (lockFile_inj.1 heq)).2

theorem sound_of_run (hs : s.held = ∅)
    (h : Run (step hash tempPath)
      (fun s call => Harmless hash tempPath s call ∧ Uncontended hash s call) s calls t) :
    Sound hash tempPath t := by
  have hsound : Sound hash tempPath s := by
    constructor <;> simp [hs]
  exact h.invariant hsound fun _ _ _ hsound hok hstep => hsound.step hok.1 hok.2 hstep

/-- As long as no write does any harm, and every call is made when nobody else
    holds the path or another one with its hash, no two clients hold a path, and
    no release removes the lock held on another path. -/
theorem locks_exclude (hs : s.held = ∅)
    (h : Run (step hash tempPath)
      (fun s call => Harmless hash tempPath s call ∧ Uncontended hash s call) s calls t) :
    Exclusive t ∧ ∀ call, Uncontended hash t call → ¬RemovesOther hash tempPath t call :=
  ⟨(sound_of_run hs h).exclusive, fun _ hfree => not_removesOther hfree⟩

/-! ## Calls with contention -/

variable (hash tempPath) in
/-- The call removes the lock held on another path, or leaves two clients that hold
    a path. -/
def Violates (s : Locks C) (call : LockCall C) : Prop :=
  RemovesOther hash tempPath s call ∨
    ∃ t, step hash tempPath s call = some t ∧ ¬Exclusive t

omit [DecidableEq C] in
/-- A release removes the lock of another path that has the same hash. -/
theorem removesOther_of_hash_eq (hmem : (c', path') ∈ s.held) (hne : path' ≠ path)
    (hhash : hash path' = hash path) (hfile : lockFile hash tempPath path ∈ s.files) :
    RemovesOther hash tempPath s (.release c path) := by
  have heq : lockFile hash tempPath path' = lockFile hash tempPath path := lockFile_inj.2 hhash
  refine ⟨c, path, _, rfl, release_eq_ok.2 ⟨hfile, rfl⟩, c', path', hmem, hne, heq ▸ hfile, ?_⟩
  rw [heq]
  exact Finset.notMem_erase _ _

/-- Two clients hold a path once it is locked by one of them and held by the other. -/
theorem violates_lock (hharmless : Harmless hash tempPath s (.lock c path write))
    (hmem : (c', path) ∈ s.held) (hne : c' ≠ c) :
    Violates hash tempPath s (.lock c path write) :=
  .inr ⟨_, step_lock hharmless, fun h => hne
    (h path c' c (Finset.mem_insert_of_mem hmem) (Finset.mem_insert_self _ _))⟩

/-- Any other call whose write does no harm violates the exclusion, or lets the
    next one do so. -/
theorem violates_of_contended (hs : s.held = ∅)
    (h : Run (step hash tempPath)
      (fun s call => Harmless hash tempPath s call ∧ Uncontended hash s call) s calls t)
    (hharmless : Harmless hash tempPath t call) (hcall : ¬Uncontended hash t call) :
    Violates hash tempPath t call ∨ ∃ u call', step hash tempPath t call = some u ∧
      Violates hash tempPath u call' := by
  rw [Uncontended] at hcall
  push Not at hcall
  obtain ⟨c', path', hmem, hhash, hother⟩ := hcall
  have hfile := (sound_of_run hs h).present hmem
  cases call with
  | lock c path write =>
    by_cases hpath : path' = path
    · subst hpath
      exact .inl (violates_lock hharmless hmem fun hc => hother hc rfl)
    · -- the release of the path just locked
      refine .inr ⟨_, .release c path, step_lock hharmless, .inl ?_⟩
      exact removesOther_of_hash_eq (Finset.mem_insert_of_mem hmem) hpath hhash
        (Finset.mem_insert_self _ _)
  | release c path =>
    rw [lockFile_inj.2 hhash] at hfile
    by_cases hpath : path' = path
    · -- the path can be locked, though its lock has not been released
      subst hpath
      refine .inr ⟨_, .lock c path' some, step_release_of_mem hfile, ?_⟩
      have hc : c' ≠ c := fun hc => hother hc rfl
      exact violates_lock (harmless_some _ _ _) (Finset.mem_erase.2 ⟨by simp [hc], hmem⟩) hc
    · exact .inl (.inl (removesOther_of_hash_eq hmem hpath hhash hfile))

/-! ## Two clients -/

/-- Two clients lock a path, and both writes return. -/
theorem not_exclusive_two :
    let hash : Bytes → UInt64 := fun path => path.length.toUInt64
    ∃ calls t, Run (step hash (ascii "/tmp")) (Harmless hash (ascii "/tmp")) (⟨∅, ∅⟩ : Locks Bool)
      calls t ∧ ¬Exclusive t := by
  intro hash
  refine ⟨_, _, .snoc (.snoc .nil (harmless_some _ false (ascii "a")) rfl)
    (harmless_some _ true (ascii "a")) rfl, fun h => ?_⟩
  exact absurd (h (ascii "a") false true (by simp) (by simp)) (by decide)

/-- A client locks a path while another one holds a path with another hash. -/
theorem locks_exclude_two :
    let hash : Bytes → UInt64 := fun path => path.length.toUInt64
    ∃ calls t, Run (step hash (ascii "/tmp"))
        (fun s call => Harmless hash (ascii "/tmp") s call ∧ Uncontended hash s call)
        (⟨∅, ∅⟩ : Locks Bool) calls t ∧
      (false, ascii "a") ∈ t.held ∧ (true, ascii "ab") ∈ t.held ∧ Exclusive t := by
  intro hash
  have hfirst : Run (step hash (ascii "/tmp"))
      (fun s call => Harmless hash (ascii "/tmp") s call ∧ Uncontended hash s call)
      (⟨∅, ∅⟩ : Locks Bool) [.lock false (ascii "a") some]
      ⟨{lockFile hash (ascii "/tmp") (ascii "a")}, {(false, ascii "a")}⟩ :=
    .single ⟨harmless_some _ _ _, by simp [Uncontended]⟩ rfl
  have hfree : Uncontended hash
      (⟨{lockFile hash (ascii "/tmp") (ascii "a")}, {(false, ascii "a")}⟩ : Locks Bool)
      (.lock true (ascii "ab") some) := by
    intro c' path' hmem hhash
    obtain ⟨rfl, rfl⟩ : c' = false ∧ path' = ascii "a" := by simpa using hmem
    exact absurd hhash (by decide)
  have hrun := hfirst.snoc ⟨harmless_some _ _ _, hfree⟩ rfl
  exact ⟨_, _, hrun, by simp, by simp, (locks_exclude rfl hrun).1⟩

end Dss.Fs.LocalLocks
