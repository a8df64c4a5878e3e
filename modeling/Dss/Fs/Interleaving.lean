import Dss.Dfs.NameNode
import Dss.Lib.Run
import Mathlib.Logic.Function.Basic

/-!
# Operations of several clients

The operations of `distributed_file_system`, called by any number of clients, at
the granularity of the calls of the name node: each owns the mutex of the map
while it runs. In between, the operations that ask for the metadata of a path hold
a pointer into the map, which no mutex protects.

An entry is identified by its path and the number of times an entry was made at
this path (`version`). The operations are atomic (`Atomic`) as long as every
pointer not yet read is to an entry that is there, and every `move_to_local` that
still has to delete its file finds there the entry it copied, or none. This holds
in every run in which no entry is taken away while it is still to be read, and
none is made where a `move_to_local` is still to delete (`atomic_of_run`); any
other step breaks it at once (`not_atomic_of_disturbed`).
-/

namespace Dss.Fs

open Dss.Lib Dss.Dfs

/-! ## The name node -/

/-- The calls of the name node that change its map. -/
inductive NameNodeCall
  | createFile (path : Bytes) (isDirectory : Bool)
  | deleteFile (path : Bytes)
  | renameFile (oldPath newPath : Bytes)
  deriving DecidableEq

namespace NameNodeCall

def apply (n : NameNode) (now : TimePoint) : NameNodeCall → NameNode × Bool
  | createFile path isDirectory => n.createFile path isDirectory now
  | deleteFile path => n.deleteFile path
  | renameFile oldPath newPath => n.renameFile oldPath newPath now

/-- The path where the call makes an entry. -/
def makes (n : NameNode) : NameNodeCall → Option Bytes
  | createFile path _ => if path ∈ n.metadata then none else some path
  | deleteFile _ => none
  | renameFile oldPath newPath =>
    if oldPath ∈ n.metadata ∧ newPath ∉ n.metadata then some newPath else none

/-- The path of the entry the call takes away. -/
def takes (n : NameNode) : NameNodeCall → Option Bytes
  | createFile _ _ => none
  | deleteFile path => if path ∈ n.metadata then some path else none
  | renameFile oldPath newPath =>
    if oldPath ∈ n.metadata ∧ newPath ∉ n.metadata then some oldPath else none

variable {n : NameNode} {now : TimePoint} {call : NameNodeCall} {path : Bytes}

/-- An entry is made where there is none. -/
theorem notMem_of_makes (h : call.makes n = some path) : path ∉ n.metadata := by
  cases call with
  | createFile path' isDirectory =>
    rw [makes] at h
    split at h
    next => cases h
    next hmem => rwa [← Option.some.inj h]
  | deleteFile path' => cases h
  | renameFile oldPath newPath =>
    rw [makes] at h
    split at h
    next hcond => rw [← Option.some.inj h]; exact hcond.2
    next => cases h

/-- An entry is there after the call if it was made by it, or was there and was not
    taken away. -/
theorem mem_apply_iff : path ∈ (call.apply n now).1.metadata ↔
    call.makes n = some path ∨ path ∈ n.metadata ∧ call.takes n ≠ some path := by
  cases call with
  | createFile path' isDirectory =>
    by_cases hmem : path' ∈ n.metadata
    · simp [apply, makes, takes, n.createFile_of_mem hmem, hmem]
    · simp [apply, makes, takes, n.createFile_of_notMem hmem, hmem, eq_comm]
  | deleteFile path' =>
    by_cases hmem : path' ∈ n.metadata
    · simp [apply, makes, takes, n.deleteFile_of_mem hmem, hmem, eq_comm, and_comm]
    · simp [apply, makes, takes, n.deleteFile_of_notMem hmem, hmem]
  | renameFile oldPath newPath =>
    by_cases hold : oldPath ∈ n.metadata
    · by_cases hnew : newPath ∈ n.metadata
      · simp [apply, makes, takes, n.renameFile_of_mem hold hnew, hnew]
      · obtain ⟨metadata, hlookup⟩ := Finmap.mem_iff.1 hold
        simp [apply, makes, takes, n.renameFile_eq hlookup hnew, hold, hnew, eq_comm, and_comm]
    · simp [apply, makes, takes, n.renameFile_of_notMem hold, hold]

end NameNodeCall

/-! ## The clients -/

/-- The operation that asks for the metadata of a path. -/
inductive PointerUse
  | openFile
  | isDirectory
  | size
  | copy (dst : Bytes)
  | copyToLocal
  | moveToLocal
  deriving DecidableEq

/-- Where a client is. -/
inductive ClientPc
  | idle
  /-- With a pointer to the entry at `path`, before it is read. -/
  | reading (use : PointerUse) (path : Bytes) (version : ℕ)
  /-- In `copy`, before `create_file`. -/
  | creating (dst : Bytes) (isDirectory : Bool)
  /-- In `move_to_local`, with the entry read, before `delete_file`. -/
  | deleting (src : Bytes) (version : ℕ)
  deriving DecidableEq

/-- What is left to do once the pointer is read. -/
def PointerUse.next (path : Bytes) (version : ℕ) (isDirectory : Bool) : PointerUse → ClientPc
  | copy dst => .creating dst isDirectory
  | moveToLocal => if isDirectory then .idle else .deleting path version
  | openFile | .isDirectory | size | copyToLocal => .idle

theorem PointerUse.next_ne_reading {use use' : PointerUse} {path path' : Bytes}
    {version version' : ℕ} {isDirectory : Bool} :
    use.next path version isDirectory ≠ .reading use' path' version' := by
  cases use <;> cases isDirectory <;> simp [next]

theorem PointerUse.of_next_eq_deleting {use : PointerUse} {path src : Bytes}
    {version version' : ℕ} {isDirectory : Bool}
    (h : use.next path version isDirectory = .deleting src version') :
    path = src ∧ version = version' := by
  cases use <;> cases isDirectory <;> simp_all [next]

/-- The name node and its clients `C`. -/
structure Clients (C : Type*) where
  nameNode : NameNode
  /-- How often an entry has been made at a path. -/
  version : Bytes → ℕ
  pc : C → ClientPc

inductive ClientEvent (C : Type*)
  /-- An operation that only changes the map, in one call. -/
  | call (client : C) (call : NameNodeCall) (now : TimePoint)
  /-- An operation starts with `get_metadata`. -/
  | getMetadata (client : C) (use : PointerUse) (path : Bytes)
  /-- The pointer is read, with the value found for `is_directory`. -/
  | read (client : C) (isDirectory : Bool)
  /-- The second call of `copy`. -/
  | createCopy (client : C) (now : TimePoint)
  /-- The local file of `move_to_local` can't be opened. -/
  | openFails (client : C)
  /-- The second call of `move_to_local`. -/
  | deleteCopied (client : C) (now : TimePoint)
  deriving DecidableEq

namespace Clients

variable {C : Type*}

/-- The entry a pointer was made to is there. -/
def Present (s : Clients C) (path : Bytes) (version : ℕ) : Prop :=
  path ∈ s.nameNode.metadata ∧ s.version path = version

instance (s : Clients C) (path : Bytes) (version : ℕ) : Decidable (s.Present path version) :=
  inferInstanceAs (Decidable (_ ∧ _))

/-- The clients after a call of the name node. -/
def apply (s : Clients C) (call : NameNodeCall) (now : TimePoint) : Clients C :=
  { s with
    nameNode := (call.apply s.nameNode now).1
    version := match call.makes s.nameNode with
      | some path => Function.update s.version path (s.version path + 1)
      | none => s.version }

variable [DecidableEq C]

def setPc (s : Clients C) (client : C) (pc : ClientPc) : Clients C :=
  { s with pc := Function.update s.pc client pc }

/-- One call of the name node, or one access to the map or the local disk between
    calls. What is read from an entry that is not there is not determined. -/
def step (s : Clients C) : ClientEvent C → Option (Clients C)
  | .call client call now =>
    if s.pc client = .idle then some ((s.apply call now).setPc client .idle) else none
  | .getMetadata client use path =>
    if s.pc client = .idle then
      some (s.setPc client (if path ∈ s.nameNode.metadata then
        .reading use path (s.version path) else .idle))
    else none
  | .read client isDirectory =>
    match s.pc client with
    | .reading use path version =>
      if s.Present path version →
          (s.nameNode.getMetadata path).any (·.isDirectory) = isDirectory then
        some (s.setPc client (use.next path version isDirectory))
      else none
    | _ => none
  | .createCopy client now =>
    match s.pc client with
    | .creating dst isDirectory =>
      some ((s.apply (.createFile dst isDirectory) now).setPc client .idle)
    | _ => none
  | .openFails client =>
    match s.pc client with
    | .deleting _ _ => some (s.setPc client .idle)
    | _ => none
  | .deleteCopied client now =>
    match s.pc client with
    | .deleting src _ => some ((s.apply (.deleteFile src) now).setPc client .idle)
    | _ => none

/-- The call of the name node made in an event. -/
def nameNodeCall (s : Clients C) : ClientEvent C → Option NameNodeCall
  | .call _ call _ => some call
  | .createCopy client _ =>
    match s.pc client with
    | .creating dst isDirectory => some (.createFile dst isDirectory)
    | _ => none
  | .deleteCopied client _ =>
    match s.pc client with
    | .deleting src _ => some (.deleteFile src)
    | _ => none
  | .getMetadata _ _ _ | .read _ _ | .openFails _ => none

/-- Every pointer still to be read is to an entry that is there, and a
    `move_to_local` that is still to delete deletes the entry it has read, or
    nothing. -/
structure Atomic (s : Clients C) : Prop where
  reading : ∀ client use path version, s.pc client = .reading use path version →
    s.Present path version
  deleting : ∀ client src version, s.pc client = .deleting src version →
    src ∈ s.nameNode.metadata → s.version src = version

/-- No entry is taken away while it is still to be read, and none is made where a
    `move_to_local` is still to delete. -/
def Undisturbed (s : Clients C) (e : ClientEvent C) : Prop :=
  ∀ call, s.nameNodeCall e = some call →
    (∀ client use path version, s.pc client = .reading use path version →
      call.takes s.nameNode ≠ some path) ∧
    ∀ client src version, s.pc client = .deleting src version →
      call.makes s.nameNode ≠ some src

variable {s t : Clients C} {e : ClientEvent C} {es : List (ClientEvent C)} {call : NameNodeCall}
  {client client' : C} {pc : ClientPc} {now : TimePoint} {path : Bytes}

@[simp] theorem setPc_self : (s.setPc client pc).pc client = pc := Function.update_self ..

@[simp] theorem setPc_of_ne (h : client' ≠ client) :
    (s.setPc client pc).pc client' = s.pc client' := Function.update_of_ne h ..

/-- A client that is not idle is not the one that has become idle. -/
theorem of_setPc_idle (h : (s.setPc client .idle).pc client' = pc) (hpc : pc ≠ .idle) :
    s.pc client' = pc := by
  have hne : client' ≠ client := by
    rintro rfl
    exact hpc (h.symm.trans setPc_self)
  exact (setPc_of_ne hne).symm.trans h

omit [DecidableEq C] in
/-- A call leaves the version of a path where it makes no entry. -/
theorem version_apply_of_ne (h : call.makes s.nameNode ≠ some path) :
    (s.apply call now).version path = s.version path := by
  rw [apply]
  split
  next path' hmakes =>
    have hne : path ≠ path' := by
      rintro rfl
      exact h hmakes
    exact Function.update_of_ne hne ..
  next => rfl

omit [DecidableEq C] in
theorem version_apply_self (h : call.makes s.nameNode = some path) :
    (s.apply call now).version path = s.version path + 1 := by
  simp [apply, h]

/-- A step is a call of the name node by a client that reads nothing, or a client
    goes on: it has a pointer to an entry that is there, or it has read one. -/
theorem step_cases (h : s.step e = some t) :
    (∃ client call now, s.nameNodeCall e = some call ∧
      t = (s.apply call now).setPc client .idle ∧
      (∀ use path version, s.pc client ≠ .reading use path version) ∧
      ∀ src version, s.pc client = .deleting src version → call.makes s.nameNode = none) ∨
    s.nameNodeCall e = none ∧ ∃ client pc, t = s.setPc client pc ∧
      (∀ use path version, pc = .reading use path version → s.Present path version) ∧
      ∀ src version, pc = .deleting src version →
        ∃ use, s.pc client = .reading use src version := by
  cases e with
  | call client call now =>
    rw [step] at h
    split at h
    next hidle =>
      obtain rfl := Option.some.inj h
      exact .inl ⟨client, call, now, rfl, rfl, by simp [hidle], by simp [hidle]⟩
    next => cases h
  | getMetadata client use path =>
    rw [step] at h
    split at h
    next hidle =>
      obtain rfl := Option.some.inj h
      refine .inr ⟨rfl, client, _, rfl, fun use' path' version hpc => ?_, fun src version hpc => ?_⟩
      · split at hpc
        next hmem =>
          obtain ⟨-, rfl, rfl⟩ := ClientPc.reading.inj hpc
          exact ⟨hmem, rfl⟩
        next => cases hpc
      · split at hpc <;> cases hpc
    next => cases h
  | read client isDirectory =>
    rw [step] at h
    split at h
    next use path version hpc =>
      split at h
      next =>
        obtain rfl := Option.some.inj h
        refine .inr ⟨rfl, client, _, rfl, fun _ _ _ hnext => absurd hnext use.next_ne_reading,
          fun src version' hnext => ?_⟩
        obtain ⟨rfl, rfl⟩ := PointerUse.of_next_eq_deleting hnext
        exact ⟨use, hpc⟩
      next => cases h
    next => cases h
  | createCopy client now =>
    rw [step] at h
    split at h
    next dst isDirectory hpc =>
      obtain rfl := Option.some.inj h
      exact .inl ⟨client, _, now, by rw [nameNodeCall, hpc], rfl, by simp [hpc], by simp [hpc]⟩
    next => cases h
  | openFails client =>
    rw [step] at h
    split at h
    next =>
      obtain rfl := Option.some.inj h
      exact .inr ⟨rfl, client, .idle, rfl, by simp, by simp⟩
    next => cases h
  | deleteCopied client now =>
    rw [step] at h
    split at h
    next src version hpc =>
      obtain rfl := Option.some.inj h
      exact .inl ⟨client, _, now, by rw [nameNodeCall, hpc], rfl, by simp [hpc], fun _ _ _ => rfl⟩
    next => cases h

/-! ## The invariant -/

/-- While a `move_to_local` is still to delete, no entry is made where it has read
    one. -/
structure Inv (s : Clients C) : Prop where
  reading : ∀ client use path version, s.pc client = .reading use path version →
    s.Present path version
  deleting : ∀ client src version, s.pc client = .deleting src version → s.version src = version

omit [DecidableEq C] in
theorem Inv.atomic (h : Inv s) : Atomic s where
  reading := h.reading
  deleting client src version hpc _ := h.deleting client src version hpc

/-- A step that disturbs nobody keeps the invariant. -/
theorem Inv.step (h : Inv s) (hok : Undisturbed s e) (hstep : s.step e = some t) : Inv t := by
  rcases step_cases hstep with
    ⟨client, call, now, hcall, rfl, -, -⟩ | ⟨-, client, pc, rfl, hreading, hdeleting⟩
  · obtain ⟨htakes, hmakes⟩ := hok call hcall
    constructor
    · intro client' use path version hpc
      replace hpc : s.pc client' = .reading use path version := of_setPc_idle hpc (by simp)
      obtain ⟨hmem, hversion⟩ := h.reading client' use path version hpc
      have hother : call.makes s.nameNode ≠ some path :=
        fun hmade => NameNodeCall.notMem_of_makes hmade hmem
      have hsame : (s.apply call now).version path = s.version path := version_apply_of_ne hother
      exact ⟨NameNodeCall.mem_apply_iff.2 (.inr ⟨hmem, htakes _ _ _ _ hpc⟩),
        hsame.trans hversion⟩
    · intro client' src version hpc
      replace hpc : s.pc client' = .deleting src version := of_setPc_idle hpc (by simp)
      have hsame : (s.apply call now).version src = s.version src :=
        version_apply_of_ne (hmakes _ _ _ hpc)
      exact hsame.trans (h.deleting client' src version hpc)
  · constructor
    · intro client' use path version hpc
      by_cases hne : client' = client
      · subst hne
        rw [setPc_self] at hpc
        exact hreading use path version hpc
      · rw [setPc_of_ne hne] at hpc
        exact h.reading client' use path version hpc
    · intro client' src version hpc
      by_cases hne : client' = client
      · subst hne
        rw [setPc_self] at hpc
        obtain ⟨use, hpc⟩ := hdeleting src version hpc
        exact (h.reading _ use src version hpc).2
      · rw [setPc_of_ne hne] at hpc
        exact h.deleting client' src version hpc

omit [DecidableEq C] in
theorem inv_of_idle (hs : ∀ client, s.pc client = .idle) : Inv s := by
  constructor <;> simp [hs]

theorem inv_of_run (hs : ∀ client, s.pc client = .idle) (h : Run step Undisturbed s es t) :
    Inv t :=
  h.invariant (inv_of_idle hs) fun _ _ _ hI hok hstep => hI.step hok hstep

/-- As long as no entry is taken away while it is still to be read, and none is made
    where a `move_to_local` is still to delete, every pointer read is to an entry
    that is there, and a `move_to_local` deletes only the entry it has read. -/
theorem atomic_of_run (hs : ∀ client, s.pc client = .idle) (h : Run step Undisturbed s es t) :
    Atomic t :=
  (inv_of_run hs h).atomic

/-- Any other step leaves a pointer to an entry that is gone, or a `move_to_local`
    that is to delete another entry. -/
theorem not_atomic_of_disturbed (hs : ∀ client, s.pc client = .idle)
    (h : Run step Undisturbed s es t) (hok : ¬Undisturbed t e) {u : Clients C}
    (hstep : t.step e = some u) : ¬Atomic u := by
  have hinv := inv_of_run hs h
  intro hatomic
  refine hok fun call hcall => ?_
  rcases step_cases hstep with ⟨client, call', now, hcall', rfl, hactor, hactor'⟩ | ⟨hnone, -⟩
  · obtain rfl := Option.some.inj (hcall.symm.trans hcall')
    refine ⟨fun client' use path version hpc htakes => ?_, fun client' src version hpc hmakes => ?_⟩
    · have hne : client' ≠ client := by
        rintro rfl
        exact hactor use path version hpc
      -- the entry was there, and has been taken away
      have hmem := (hinv.reading client' use path version hpc).1
      have hpresent := (hatomic.reading client' use path version (by rwa [setPc_of_ne hne])).1
      rcases NameNodeCall.mem_apply_iff.1 hpresent with hmade | ⟨-, hkept⟩
      · exact NameNodeCall.notMem_of_makes hmade hmem
      · exact hkept htakes
    · have hne : client' ≠ client := by
        rintro rfl
        rw [hactor' src version hpc] at hmakes
        cases hmakes
      -- the entry is a new one
      have hversion := hinv.deleting client' src version hpc
      have hsame := hatomic.deleting client' src version (by rwa [setPc_of_ne hne])
        (NameNodeCall.mem_apply_iff.2 (.inl hmakes))
      have hnew : (t.apply call now).version src = t.version src + 1 := version_apply_self hmakes
      have : (t.apply call now).version src = version := hsame
      omega
  · rw [hnone] at hcall
    cases hcall

/-! ## Two clients -/

/-- Two clients of a new name node with the file `a`. -/
def twoClients : Clients Bool where
  nameNode := ((NameNode.create 1).createFile (ascii "a") false 0).1
  version _ := 1
  pc _ := .idle

/-- A file is deleted by one client before the other one reads its size; and a file
    is deleted and made again by one client while the other one moves it to the
    local disk, which deletes the new one. -/
theorem not_atomic_two :
    (∃ es t, Run step always twoClients es t ∧ t.pc false = .reading .size (ascii "a") 1 ∧
      ¬t.Present (ascii "a") 1 ∧ (t.step (.read false false)).isSome) ∧
    ∃ es t, Run step always twoClients es t ∧ t.pc false = .deleting (ascii "a") 1 ∧
      t.Present (ascii "a") 2 ∧
      (t.step (.deleteCopied false 2)).any (ascii "a" ∉ ·.nameNode.metadata) := by
  constructor
  · obtain ⟨t, ht, hpc⟩ := Option.map_eq_some_iff.1 (by decide +kernel :
      (exec step twoClients [.getMetadata false .size (ascii "a"),
        .call true (.deleteFile (ascii "a")) 0]).map
          (fun t => (t.pc false, decide (t.Present (ascii "a") 1),
            (t.step (.read false false)).isSome)) =
        some (.reading .size (ascii "a") 1, false, true))
    simp only [Prod.mk.injEq] at hpc
    exact ⟨_, t, .of_exec (by decide +kernel) ht, hpc.1, of_decide_eq_false hpc.2.1, hpc.2.2⟩
  · obtain ⟨t, ht, hpc⟩ := Option.map_eq_some_iff.1 (by decide +kernel :
      (exec step twoClients [.getMetadata false .moveToLocal (ascii "a"), .read false false,
        .call true (.deleteFile (ascii "a")) 0, .call true (.createFile (ascii "a") false) 1]).map
          (fun t => (t.pc false, decide (t.Present (ascii "a") 2),
            (t.step (.deleteCopied false 2)).any (ascii "a" ∉ ·.nameNode.metadata))) =
        some (.deleting (ascii "a") 1, true, true))
    simp only [Prod.mk.injEq] at hpc
    exact ⟨_, t, .of_exec (by decide +kernel) ht, hpc.1, of_decide_eq_true hpc.2.1, hpc.2.2⟩

/-- A file is made by one client while the other one reads the size of another. -/
theorem atomic_of_run_two :
    ∃ es t, Run step Undisturbed twoClients es t ∧
      t.pc false = .reading .size (ascii "a") 1 ∧ ascii "b" ∈ t.nameNode.metadata ∧ Atomic t := by
  have hmem : ascii "a" ∈ twoClients.nameNode.metadata := by decide +kernel
  have hfirst : Run step Undisturbed twoClients [.getMetadata false .size (ascii "a")]
      (twoClients.setPc false (.reading .size (ascii "a") 1)) := by
    refine .single (fun call hcall => by cases hcall) ?_
    rw [step, if_pos (show twoClients.pc false = .idle from rfl), if_pos hmem]
    rfl
  have hok : Undisturbed (twoClients.setPc false (.reading .size (ascii "a") 1))
      (.call true (.createFile (ascii "b") false) 1) := by
    intro call hcall
    obtain rfl := Option.some.inj hcall
    refine ⟨fun _ _ _ _ _ => nofun, fun client src version hpc => ?_⟩
    cases client <;> cases hpc
  have hrun := hfirst.snoc hok rfl
  exact ⟨_, _, hrun, rfl, by decide +kernel, atomic_of_run (fun _ => rfl) hrun⟩

end Clients

end Dss.Fs
