import Dss.Fs.Operations
import Dss.Fs.Separation
import Dss.Lib.Linearization

/-!
# Operations in one step

The operations of `distributed_file_system` by several clients, seen as if each happened
in one step (`FileOperation.run`): the one in which it returns. With the operations that
are under way remembered (`Tracked`), the clients keep out of each other's way if none
starts an operation on a path of an operation another one has under way (`Exclusive`).
Then every operation returns what it returns if the operations are called one after the
other, in the order in which they return, and the name node is what it is then
(`exclusive_linearizable`).
-/

namespace Dss.Fs

open Dss.Lib Dss.Dfs

/-! ## Operations -/

/-- An operation that is one call of the name node, or one that starts with
    `get_metadata`. -/
inductive FileOperation
  | call (call : NameNodeCall)
  | use (use : PointerUse) (path : Bytes)
  deriving DecidableEq

/-- What an operation returns. -/
inductive Returned
  | thrown
  | flag (b : Bool)
  | size (n : UInt64)
  /-- Whether the local file could be opened. -/
  | opened
  deriving DecidableEq

/-- An operation at the time `now`, and whether the local file it opens could be
    opened. -/
structure Invocation where
  op : FileOperation
  now : TimePoint
  opens : Bool
  deriving DecidableEq

namespace FileOperation

/-- The paths the operation is called with. -/
def paths : FileOperation → List Bytes
  | .call nameNodeCall => nameNodeCall.paths
  | .use pointerUse path => path :: pointerUse.paths

/-- The operation, without any other in between. -/
def run (fs : DistributedFileSystem) : Invocation → DistributedFileSystem × Returned
  | ⟨.call nameNodeCall, now, _⟩ =>
    let (nameNode, done) := nameNodeCall.apply fs.nameNode now
    ({ fs with nameNode }, .flag done)
  | ⟨.use .openFile path, _, _⟩ =>
    (fs, match fs.openFile path with
      | .error _ => .thrown
      | .ok () => .flag true)
  | ⟨.use .isDirectory path, _, _⟩ => (fs, .flag (fs.isDirectory path))
  | ⟨.use .size path, _, _⟩ => (fs, .size (fs.size path))
  | ⟨.use (.copy dst) src, now, _⟩ =>
    let (fs, copied) := fs.copy src dst now
    (fs, .flag copied)
  | ⟨.use .copyToLocal src, _, _⟩ =>
    (fs, if fs.isExists src && !fs.isDirectory src then .opened else .flag false)
  | ⟨.use .moveToLocal src, _, opens⟩ =>
    if (fs.isExists src && !fs.isDirectory src) && opens then
      let (fs, removed) := fs.remove src
      (fs, .flag removed)
    else (fs, .flag false)

end FileOperation

/-- What is returned if there is no entry. -/
def PointerUse.absent : PointerUse → Returned
  | openFile => .thrown
  | isDirectory | copy _ | copyToLocal | moveToLocal => .flag false
  | size => .size 0

/-- What is returned when the entry is read, if nothing is left to do then. -/
def PointerUse.found (isDirectory : Bool) (bytes : UInt64) : PointerUse → Returned
  | openFile => if isDirectory then .thrown else .flag true
  | .isDirectory => .flag isDirectory
  | size => .size bytes
  | copyToLocal => if isDirectory then .flag false else .opened
  | copy _ | moveToLocal => .flag false

namespace FileOperation

variable {fs : DistributedFileSystem} {path src dst : Bytes} {metadata : FileMetadata}
  {use : PointerUse} {now : TimePoint} {opens : Bool} {version : ℕ}

theorem run_absent (h : fs.nameNode.getMetadata path = none) :
    run fs ⟨.use use path, now, opens⟩ = (fs, use.absent) := by
  cases use <;> simp [run, PointerUse.absent, DistributedFileSystem.openFile,
    DistributedFileSystem.isDirectory, DistributedFileSystem.size, DistributedFileSystem.copy,
    DistributedFileSystem.isExists, h]

/-- An operation with nothing left to do once the entry is read. -/
theorem run_found (h : fs.nameNode.getMetadata path = some metadata)
    (hnext : use.next path version metadata.isDirectory = .idle) :
    run fs ⟨.use use path, now, opens⟩ =
      (fs, use.found metadata.isDirectory metadata.size) := by
  cases use with
  | copy dst => cases hnext
  | moveToLocal =>
    cases hdir : metadata.isDirectory with
    | false => simp [PointerUse.next, hdir] at hnext
    | true => simp [run, PointerUse.found, DistributedFileSystem.isDirectory, h, hdir]
  | openFile =>
    cases hdir : metadata.isDirectory <;>
      simp [run, PointerUse.found, DistributedFileSystem.openFile, h, hdir]
  | copyToLocal =>
    cases hdir : metadata.isDirectory <;>
      simp [run, PointerUse.found, DistributedFileSystem.isExists,
        DistributedFileSystem.isDirectory, h, hdir]
  | isDirectory => simp [run, PointerUse.found, DistributedFileSystem.isDirectory, h]
  | size => simp [run, PointerUse.found, DistributedFileSystem.size, h]

/-- `copy` with the entry read. -/
theorem run_copy (h : fs.nameNode.getMetadata src = some metadata) :
    run fs ⟨.use (.copy dst) src, now, opens⟩ =
      ({ fs with nameNode := (fs.nameNode.createFile dst metadata.isDirectory now).1 },
        .flag (fs.nameNode.createFile dst metadata.isDirectory now).2) := by
  simp only [run, DistributedFileSystem.copy, h]

/-- `move_to_local` of a file. -/
theorem run_moveToLocal (h : fs.nameNode.getMetadata src = some metadata)
    (hdir : metadata.isDirectory = false) :
    run fs ⟨.use .moveToLocal src, now, opens⟩ =
      if opens then ({ fs with nameNode := (fs.nameNode.deleteFile src).1 },
        .flag (fs.nameNode.deleteFile src).2)
      else (fs, .flag false) := by
  simp [run, DistributedFileSystem.isExists, DistributedFileSystem.isDirectory,
    DistributedFileSystem.remove, h, hdir]

/-- On a local disk, `copy_to_local` returns whether the local file could be opened, if
    it gets there. -/
theorem copyToLocal_eq {S : Type*} (disk : LocalDisk S) (w : Stores S) :
    (w.copyToLocal disk src dst).2 = true ↔
      (run w.fs ⟨.use .copyToLocal src, now, opens⟩).2 = .opened ∧
        (disk.openTruncated w.localDisk dst).isSome := by
  rw [Stores.copyToLocal, run]
  cases hsrc : w.fs.nameNode.getMetadata src with
  | none => simp [DistributedFileSystem.isExists, hsrc]
  | some metadata =>
    cases hdir : metadata.isDirectory <;> cases disk.openTruncated w.localDisk dst <;>
      simp [DistributedFileSystem.isExists, DistributedFileSystem.isDirectory, hsrc, hdir]

/-- And `move_to_local` does to the distributed file system what it does there. -/
theorem moveToLocal_eq {S : Type*} (disk : LocalDisk S) (w : Stores S) :
    run w.fs ⟨.use .moveToLocal src, now, (disk.openTruncated w.localDisk dst).isSome⟩ =
      ((w.moveToLocal disk src dst).1.fs, .flag (w.moveToLocal disk src dst).2) := by
  rw [Stores.moveToLocal, Stores.copyToLocal, run]
  cases hsrc : w.fs.nameNode.getMetadata src with
  | none => simp [DistributedFileSystem.isExists, hsrc]
  | some metadata =>
    cases hdir : metadata.isDirectory <;> cases disk.openTruncated w.localDisk dst <;>
      simp [DistributedFileSystem.isExists, DistributedFileSystem.isDirectory,
        DistributedFileSystem.remove, hsrc, hdir]

end FileOperation

/-! ## Operations under way -/

namespace ClientEvent

variable {C : Type}

/-- The operation that starts. -/
def starts : ClientEvent C → Option FileOperation
  | .call _ nameNodeCall _ => some (.call nameNodeCall)
  | .getMetadata _ pointerUse path => some (.use pointerUse path)
  | .read _ _ | .createCopy _ _ | .openFails _ | .deleteCopied _ _ => none

/-- The time at which the clock is read. -/
def now : ClientEvent C → TimePoint
  | .call _ _ now | .createCopy _ now | .deleteCopied _ now => now
  | .getMetadata _ _ _ | .read _ _ | .openFails _ => 0

/-- Whether the local file could be opened. -/
def opens : ClientEvent C → Bool
  | .openFails _ => false
  | .call _ _ _ | .getMetadata _ _ _ | .read _ _ | .createCopy _ _ | .deleteCopied _ _ => true

end ClientEvent

/-- What is returned in a step in which an operation returns. -/
def Clients.returned {C : Type} (s : Clients C) : ClientEvent C → Returned
  | .call _ nameNodeCall now => .flag (nameNodeCall.apply s.nameNode now).2
  | .getMetadata _ pointerUse _ => pointerUse.absent
  | .read client isDirectory =>
    match s.pc client with
    | .reading pointerUse path _ =>
      pointerUse.found isDirectory (((s.nameNode.getMetadata path).map (·.size)).getD 0)
    | _ => .thrown
  | .createCopy client now =>
    match s.pc client with
    | .creating dst isDirectory => .flag (s.nameNode.createFile dst isDirectory now).2
    | _ => .thrown
  | .openFails _ => .flag false
  | .deleteCopied client _ =>
    match s.pc client with
    | .deleting src _ => .flag (s.nameNode.deleteFile src).2
    | _ => .thrown

/-- The clients, and the operations that are under way. -/
structure Tracked (C : Type) where
  clients : Clients C
  op : C → Option FileOperation

namespace Tracked

variable {C : Type} [DecidableEq C]

/-- The clients of a name node, before any of them has started. -/
def start (n : NameNode) : Tracked C where
  clients := { nameNode := n, version := fun _ => 0, pc := fun _ => .idle }
  op _ := none

/-- The operation a step belongs to. -/
def opAt (s : Tracked C) (e : ClientEvent C) : Option FileOperation := e.starts.or (s.op e.client)

/-- A client that becomes idle has no operation under way any more. -/
def after (s : Tracked C) (e : ClientEvent C) (clients : Clients C) : Tracked C where
  clients
  op := Function.update s.op e.client
    (if clients.pc e.client = .idle then none else s.opAt e)

def step (s : Tracked C) (e : ClientEvent C) : Option (Tracked C) :=
  (s.clients.step e).map (s.after e)

/-- The operation that returns in the step, its client and what it returns. -/
def completed (s : Tracked C) (e : ClientEvent C) (t : Tracked C) :
    List ((C × Invocation) × Returned) :=
  if t.clients.pc e.client = .idle then
    (s.opAt e).toList.map fun op => ((e.client, ⟨op, e.now, e.opens⟩), s.clients.returned e)
  else []

/-- No operation is started on a path of an operation another client has under way. -/
def Exclusive (s : Tracked C) (e : ClientEvent C) : Prop :=
  ∀ op, e.starts = some op → ∀ d, d ≠ e.client → ∀ op', s.op d = some op' →
    ∀ path ∈ op.paths, path ∉ op'.paths

instance [Fintype C] (s : Tracked C) (e : ClientEvent C) : Decidable (s.Exclusive e) :=
  decidable_of_iff (∀ op ∈ e.starts, ∀ d, d ≠ e.client → ∀ op' ∈ s.op d,
    ∀ path ∈ op.paths, path ∉ op'.paths) Iff.rfl

/-- The entries an operation relies on: what it has found there is there. -/
def Reached (clients : Clients C) : ClientPc → Option FileOperation → Prop
  | .idle, op => op = none
  | .reading pointerUse path version, op =>
    op = some (.use pointerUse path) ∧ clients.Present path version
  | .creating dst isDirectory, op => ∃ src metadata, op = some (.use (.copy dst) src) ∧
      clients.nameNode.getMetadata src = some metadata ∧ metadata.isDirectory = isDirectory
  | .deleting src _, op => ∃ metadata, op = some (.use .moveToLocal src) ∧
      clients.nameNode.getMetadata src = some metadata ∧ metadata.isDirectory = false

/-- The invariant: every client is where its operation has got to, and the operations
    under way are on different paths. -/
structure Inv (s : Tracked C) : Prop where
  reached : ∀ c, Reached s.clients (s.clients.pc c) (s.op c)
  apart : ∀ c d, c ≠ d → ∀ op op', s.op c = some op → s.op d = some op' →
    ∀ path ∈ op.paths, path ∉ op'.paths

variable {s t : Tracked C} {e : ClientEvent C} {es : List (ClientEvent C)} {c d : C}
  {clients clients' : Clients C} {pc : ClientPc} {op : Option FileOperation} {path : Bytes}
  {o o' : FileOperation}

theorem op_after : (s.after e clients).op e.client =
    if clients.pc e.client = .idle then none else s.opAt e := Function.update_self ..

theorem op_after_of_ne (hd : d ≠ e.client) : (s.after e clients).op d = s.op d :=
  Function.update_of_ne hd ..

omit [DecidableEq C] in
/-- Where a client has got to depends on the entries at the paths of its operation. -/
theorem Reached.congr (h : Reached clients pc op)
    (hsame : ∀ o, op = some o → ∀ path ∈ o.paths,
      clients'.nameNode.getMetadata path = clients.nameNode.getMetadata path ∧
        clients'.version path = clients.version path) : Reached clients' pc op := by
  cases pc with
  | idle => exact h
  | reading pointerUse path version =>
    obtain ⟨rfl, hmem, hversion⟩ := h
    obtain ⟨hmetadata, hversion'⟩ := hsame _ rfl path (by simp [FileOperation.paths])
    refine ⟨rfl, ?_, hversion'.trans hversion⟩
    rw [NameNode.mem_iff] at hmem ⊢
    exact hmetadata.trans_ne hmem
  | creating dst isDirectory =>
    obtain ⟨src, metadata, rfl, hsrc, hdir⟩ := h
    obtain ⟨hmetadata, -⟩ := hsame _ rfl src (by simp [FileOperation.paths])
    exact ⟨src, metadata, rfl, hmetadata.trans hsrc, hdir⟩
  | deleting src version =>
    obtain ⟨metadata, rfl, hsrc, hdir⟩ := h
    obtain ⟨hmetadata, -⟩ := hsame _ rfl src (by simp [FileOperation.paths])
    exact ⟨metadata, rfl, hmetadata.trans hsrc, hdir⟩

omit [DecidableEq C] in
/-- The paths a client is still about are among those of its operation. -/
theorem Reached.mem_paths (h : Reached clients pc op) (hpath : path ∈ pc.paths) :
    ∃ o, op = some o ∧ path ∈ o.paths := by
  cases pc with
  | idle => cases hpath
  | reading pointerUse path version => exact ⟨_, h.1, hpath⟩
  | creating dst isDirectory =>
    obtain ⟨src, -, hop, -⟩ := h
    exact ⟨_, hop, List.mem_cons_of_mem _ hpath⟩
  | deleting src version =>
    obtain ⟨-, hop, -⟩ := h
    exact ⟨_, hop, hpath⟩

omit [DecidableEq C] in
theorem exists_starts (hpath : path ∈ e.paths) : ∃ o, e.starts = some o ∧ path ∈ o.paths := by
  cases e with
  | call | getMetadata => exact ⟨_, rfl, hpath⟩
  | read | createCopy | openFails | deleteCopied => cases hpath

omit [DecidableEq C] in
theorem mem_paths_of_starts (ho : e.starts = some o) (hpath : path ∈ o.paths) :
    path ∈ e.paths := by
  cases e with
  | call | getMetadata =>
    obtain rfl := Option.some.inj ho
    exact hpath
  | read | createCopy | openFails | deleteCopied => cases ho

/-- An operation is started by a client that has none under way. -/
theorem idle_of_starts (hs : clients.step e = some clients') (ho : e.starts = some o) :
    clients.pc e.client = .idle := by
  cases e with
  | call client nameNodeCall now =>
    rw [Clients.step, Option.ite_none_right_eq_some] at hs
    exact hs.1
  | getMetadata client pointerUse path =>
    rw [Clients.step, Option.ite_none_right_eq_some] at hs
    exact hs.1
  | read | createCopy | openFails | deleteCopied => cases ho

namespace Inv

/-- A step is about paths of the operation it belongs to. -/
theorem exists_opAt (h : Inv s) (hs : s.clients.step e = some clients)
    (hpath : path ∈ e.paths ∨ path ∈ (s.clients.pc e.client).paths) :
    ∃ o, s.opAt e = some o ∧ path ∈ o.paths := by
  rcases hpath with hpath | hpath
  · obtain ⟨o, ho, hpath⟩ := exists_starts hpath
    exact ⟨o, by rw [opAt, ho, Option.some_or], hpath⟩
  · obtain ⟨o, ho, hmem⟩ := (h.reached e.client).mem_paths hpath
    cases hstarts : e.starts with
    | none => exact ⟨o, by rw [opAt, hstarts, Option.none_or, ho], hmem⟩
    | some o' =>
      rw [idle_of_starts hs hstarts] at hpath
      cases hpath

omit [DecidableEq C] in
/-- Nobody else has an operation under way on its paths. -/
theorem apart_opAt (h : Inv s) (hok : Exclusive s e) (ho : s.opAt e = some o)
    (hd : d ≠ e.client) (ho' : s.op d = some o') (hpath : path ∈ o.paths) : path ∉ o'.paths := by
  cases hstarts : e.starts with
  | none =>
    rw [opAt, hstarts, Option.none_or] at ho
    exact h.apart e.client d hd.symm o o' ho ho' path hpath
  | some o'' =>
    rw [opAt, hstarts, Option.some_or] at ho
    exact hok o (hstarts.trans ho) d hd o' ho' path hpath

/-- The other clients are where they were. -/
theorem reached_other (h : Inv s) (hok : Exclusive s e) (hs : s.clients.step e = some clients)
    (hd : d ≠ e.client) : Reached clients (clients.pc d) (s.op d) := by
  rcases Clients.step_paths hs with ⟨call, now, rfl, hpaths⟩ | ⟨pc, rfl, -⟩
  · rw [Clients.setPc_of_ne hd]
    refine (h.reached d).congr fun o' ho' path hpath => ?_
    have hmem : path ∉ call.paths := fun hmem => by
      obtain ⟨o, ho, hmem⟩ := h.exists_opAt hs (hpaths path hmem)
      exact h.apart_opAt hok ho hd ho' hmem hpath
    have hmakes : call.makes s.clients.nameNode ≠ some path := fun hmakes =>
      hmem (NameNodeCall.mem_paths_of_makes hmakes)
    have hversion : (s.clients.apply call now).version path = s.clients.version path :=
      Clients.version_apply_of_ne hmakes
    exact ⟨NameNodeCall.files_apply_of_notMem hmem, hversion⟩
  · rw [Clients.setPc_of_ne hd]
    exact (h.reached d).congr fun _ _ _ _ => ⟨rfl, rfl⟩

end Inv

/-- What the clients work on. -/
def fs (cfg : Config.NameNodeConfiguration) (s : Tracked C) : DistributedFileSystem :=
  ⟨s.clients.nameNode, cfg⟩

/-- The operations of clients, one after the other. -/
def sequential (fs : DistributedFileSystem) (i : C × Invocation) :
    DistributedFileSystem × Returned :=
  FileOperation.run fs i.2

/-- The client that takes a step gets on with its operation, or returns what it returns
    without the others. -/
def GoesOn (s : Tracked C) (e : ClientEvent C) (t : Tracked C) : Prop :=
  Reached t.clients (t.clients.pc e.client) (t.op e.client) ∧
    ∀ cfg, Replays sequential (s.fs cfg) (s.completed e t) (t.fs cfg)

theorem goesOn_of_idle (hidle : clients.pc e.client = .idle) (ho : s.opAt e = some o)
    (hrun : ∀ cfg, FileOperation.run (s.fs cfg) ⟨o, e.now, e.opens⟩ =
      (⟨clients.nameNode, cfg⟩, s.clients.returned e)) : GoesOn s e (s.after e clients) := by
  constructor
  · rw [op_after, if_pos hidle]
    change Reached clients (clients.pc e.client) none
    rw [hidle]
    rfl
  · have hcompleted : s.completed e (s.after e clients) =
        [((e.client, ⟨o, e.now, e.opens⟩), s.clients.returned e)] := by
      rw [completed, after, if_pos hidle, ho]
      rfl
    intro cfg
    rw [hcompleted]
    exact .single (hrun cfg)

theorem goesOn_of_reached (hne : clients.pc e.client ≠ .idle)
    (hnode : clients.nameNode = s.clients.nameNode)
    (hreached : Reached clients (clients.pc e.client) (s.opAt e)) :
    GoesOn s e (s.after e clients) := by
  constructor
  · rw [op_after, if_neg hne]
    exact hreached
  · intro cfg
    rw [completed, after, if_neg hne, fs, fs, hnode]
    exact .nil

/-- So does every client. -/
theorem Inv.goesOn (h : Inv s) (hs : s.clients.step e = some clients) :
    GoesOn s e (s.after e clients) := by
  have hreached := h.reached e.client
  cases e with
  | call client call now =>
    rw [Clients.step, Option.ite_none_right_eq_some, Option.some.injEq] at hs
    obtain ⟨-, rfl⟩ := hs
    exact goesOn_of_idle Clients.setPc_self rfl fun _ => rfl
  | getMetadata client pointerUse path =>
    rw [Clients.step, Option.ite_none_right_eq_some, Option.some.injEq] at hs
    obtain ⟨-, rfl⟩ := hs
    by_cases hmem : path ∈ s.clients.nameNode.metadata
    · rw [if_pos hmem]
      refine goesOn_of_reached (by simp [ClientEvent.client]) rfl ?_
      rw [ClientEvent.client, Clients.setPc_self]
      exact ⟨rfl, hmem, rfl⟩
    · rw [if_neg hmem]
      exact goesOn_of_idle Clients.setPc_self rfl fun _ =>
        FileOperation.run_absent (Finmap.lookup_eq_none.2 hmem)
  | read client isDirectory =>
    rw [Clients.step] at hs
    split at hs
    next pointerUse path version hpc =>
      simp only [ClientEvent.client, hpc] at hreached
      obtain ⟨hop, hpresent⟩ := hreached
      rw [Option.ite_none_right_eq_some, Option.some.injEq] at hs
      obtain ⟨hvalue, rfl⟩ := hs
      obtain ⟨metadata, hmetadata⟩ := Finmap.mem_iff.1 hpresent.1
      replace hmetadata : s.clients.nameNode.getMetadata path = some metadata := hmetadata
      obtain rfl : metadata.isDirectory = isDirectory := by
        simpa [hmetadata] using hvalue hpresent
      by_cases hnext : pointerUse.next path version metadata.isDirectory = .idle
      · refine goesOn_of_idle (o := .use pointerUse path) ?_ hop fun cfg => ?_
        · exact Clients.setPc_self.trans hnext
        · rw [FileOperation.run_found hmetadata hnext]
          simp [Clients.returned, hpc, hmetadata, fs, Clients.setPc]
      · have hself : (s.clients.setPc client
            (pointerUse.next path version metadata.isDirectory)).pc client = _ := Clients.setPc_self
        refine goesOn_of_reached (hself.trans_ne hnext) rfl ?_
        rw [ClientEvent.client, hself]
        change Reached _ _ (s.op client)
        rw [hop]
        cases pointerUse with
        | copy dst => exact ⟨path, metadata, rfl, hmetadata, rfl⟩
        | moveToLocal =>
          cases hdir : metadata.isDirectory with
          | true => exact absurd (by simp [PointerUse.next, hdir]) hnext
          | false => exact ⟨metadata, rfl, hmetadata, hdir⟩
        | openFile | isDirectory | size | copyToLocal => exact absurd rfl hnext
    next => cases hs
  | createCopy client now =>
    rw [Clients.step] at hs
    split at hs
    next dst isDirectory hpc =>
      simp only [ClientEvent.client, hpc] at hreached
      obtain ⟨src, metadata, hop, hsrc, rfl⟩ := hreached
      obtain rfl := Option.some.inj hs
      refine goesOn_of_idle Clients.setPc_self hop fun cfg => ?_
      rw [FileOperation.run_copy hsrc, Clients.returned, hpc]
      rfl
    next => cases hs
  | openFails client =>
    rw [Clients.step] at hs
    split at hs
    next src version hpc =>
      simp only [ClientEvent.client, hpc] at hreached
      obtain ⟨metadata, hop, hsrc, hdir⟩ := hreached
      obtain rfl := Option.some.inj hs
      refine goesOn_of_idle Clients.setPc_self hop fun cfg => ?_
      rw [FileOperation.run_moveToLocal hsrc hdir]
      rfl
    next => cases hs
  | deleteCopied client now =>
    rw [Clients.step] at hs
    split at hs
    next src version hpc =>
      simp only [ClientEvent.client, hpc] at hreached
      obtain ⟨metadata, hop, hsrc, hdir⟩ := hreached
      obtain rfl := Option.some.inj hs
      refine goesOn_of_idle Clients.setPc_self hop fun cfg => ?_
      rw [FileOperation.run_moveToLocal hsrc hdir, Clients.returned, hpc]
      rfl
    next => cases hs

/-- What is under way after a step was under way before, or is what the step belongs
    to. -/
theorem of_op_after (ho : (s.after e clients).op c = some o) :
    c = e.client ∧ s.opAt e = some o ∨ c ≠ e.client ∧ s.op c = some o := by
  by_cases hc : c = e.client
  · subst hc
    rw [op_after, Option.ite_none_left_eq_some] at ho
    exact .inl ⟨rfl, ho.2⟩
  · rw [op_after_of_ne hc] at ho
    exact .inr ⟨hc, ho⟩

namespace Inv

omit [DecidableEq C] in
theorem start (n : NameNode) : (start n : Tracked C).Inv where
  reached _ := rfl
  apart _ _ _ _ _ ho := by cases ho

theorem step (h : Inv s) (hok : Exclusive s e) (hs : s.step e = some t) : Inv t := by
  obtain ⟨clients, hclients, rfl⟩ := Option.map_eq_some_iff.1 hs
  constructor
  · intro c
    by_cases hc : c = e.client
    · subst hc
      exact (h.goesOn hclients).1
    · rw [op_after_of_ne hc]
      exact h.reached_other hok hclients hc
  · intro c d hcd o o' ho ho' path hpath hpath'
    rcases of_op_after ho with ⟨rfl, hat⟩ | ⟨hc, hop⟩ <;>
      rcases of_op_after ho' with ⟨rfl, hat'⟩ | ⟨hd, hop'⟩
    · exact hcd rfl
    · exact h.apart_opAt hok hat hd hop' hpath hpath'
    · exact h.apart_opAt hok hat' hc hop hpath' hpath
    · exact h.apart c d hcd o o' hop hop' path hpath hpath'

/-- An operation starts, is under way, and returns. -/
theorem started (h : Inv s) (hs : s.clients.step e = some clients) :
    (s.op e.client).toList ++ e.starts.toList =
      (s.completed e (s.after e clients)).map (·.1.2.op) ++
        ((s.after e clients).op e.client).toList := by
  have hat : (s.op e.client).toList ++ e.starts.toList = (s.opAt e).toList := by
    rw [opAt]
    cases hstarts : e.starts with
    | none => simp
    | some o =>
      have hreached := h.reached e.client
      rw [idle_of_starts hs hstarts] at hreached
      rw [show s.op e.client = none from hreached]
      rfl
  rw [hat, completed, op_after]
  by_cases hidle : clients.pc e.client = .idle
  · rw [after, if_pos hidle, if_pos hidle]
    cases s.opAt e <;> rfl
  · rw [after, if_neg hidle, if_neg hidle]
    rfl

end Inv

omit [DecidableEq C] in
theorem client_of_mem_completed {x : (C × Invocation) × Returned}
    (hx : x ∈ s.completed e t) : x.1.1 = e.client := by
  rw [completed] at hx
  split at hx
  next =>
    obtain ⟨op, -, rfl⟩ := List.mem_map.1 hx
    rfl
  next => cases hx

theorem inv_of_run {n : NameNode} (h : Run step Exclusive (start n) es t) : Inv t :=
  h.invariant (.start n) fun _ _ _ hI hok hs => hI.step hok hs

/-- Every client's operations return in the order in which they have started. -/
theorem started_of_run {n : NameNode} (h : Run step Exclusive (start n) es t) (c : C) :
    (es.filter (·.client = c)).filterMap ClientEvent.starts =
      ((trace step completed (start n) es).filter (·.1.1 = c)).map (·.1.2.op) ++
        (t.op c).toList := by
  induction h with
  | nil => rfl
  | @snoc es s u e hrun hok hs ih =>
    obtain ⟨clients, hclients, rfl⟩ := Option.map_eq_some_iff.1 hs
    rw [hrun.trace_concat hs, List.filter_append, List.filter_append, List.filterMap_append,
      List.map_append, ih]
    by_cases hc : c = e.client
    · subst hc
      have hown : (s.completed e (s.after e clients)).filter (·.1.1 = e.client) =
          s.completed e (s.after e clients) :=
        List.filter_eq_self.2 fun x hx => by simpa using client_of_mem_completed hx
      have hstarts : ([e].filter (·.client = e.client)).filterMap ClientEvent.starts =
          e.starts.toList := by
        cases hstarts : e.starts <;> simp [hstarts]
      have hstarted := (inv_of_run hrun).started hclients
      rw [hown, hstarts, List.append_assoc, hstarted, List.append_assoc]
    · have hother : (s.completed e (s.after e clients)).filter (·.1.1 = c) = [] :=
        List.filter_eq_nil_iff.2 fun x hx => by
          simpa [client_of_mem_completed hx] using Ne.symm hc
      have hstarts : [e].filter (·.client = c) = [] := by simpa using Ne.symm hc
      rw [hother, hstarts, op_after_of_ne hc]
      simp

/-- What has returned has returned what it returns one after the other. -/
theorem replays_of_run (fs : DistributedFileSystem)
    (h : Run step Exclusive (start fs.nameNode) es t) :
    Replays sequential fs (trace step completed (start fs.nameNode) es)
      { fs with nameNode := t.clients.nameNode } := by
  refine h.replays (Tracked.fs fs.config) (Inv.start fs.nameNode)
    (fun _ _ _ hI hok hs => hI.step hok hs) fun s e u hI _ hs => ?_
  obtain ⟨clients, hclients, rfl⟩ := Option.map_eq_some_iff.1 hs
  exact (hI.goesOn hclients).2 fs.config

/-- If no client starts an operation on a path of an operation another one has under
    way, the operations do what they do one after the other, in the order in which they
    return: each returns the same, and the name node is the same in the end. The
    operations of each client are those it has started, in order, but for the one that
    is under way. -/
theorem exclusive_linearizable (fs : DistributedFileSystem)
    (h : Run step Exclusive (start fs.nameNode) es t) :
    let ops := trace step completed (start fs.nameNode) es
    Replays sequential fs ops { fs with nameNode := t.clients.nameNode } ∧
      ∀ c, (es.filter (·.client = c)).filterMap ClientEvent.starts =
        (ops.filter (·.1.1 = c)).map (·.1.2.op) ++ (t.op c).toList :=
  ⟨replays_of_run fs h, started_of_run h⟩

/-- A file is made while another one is moved to the local disk. -/
theorem exclusive_linearizable_two :
    let fs := DistributedFileSystem.newFileSystem
    let es := [ClientEvent.call false (.createFile (ascii "a") false) 1,
      .getMetadata false .moveToLocal (ascii "a"), .read false false,
      .call true (.createFile (ascii "b") false) 2, .deleteCopied false 3]
    let ops := [((false, ⟨.call (.createFile (ascii "a") false), 1, true⟩), .flag true),
      ((true, ⟨.call (.createFile (ascii "b") false), 2, true⟩), .flag true),
      ((false, ⟨.use .moveToLocal (ascii "a"), 3, true⟩), .flag true)]
    ∃ t, Run step Exclusive (start fs.nameNode) es t ∧
      Replays sequential fs ops { fs with nameNode := t.clients.nameNode } := by
  intro fs es ops
  obtain ⟨t, ht, -⟩ := Option.map_eq_some_iff.1 (by decide +kernel :
    (exec step (start fs.nameNode) es).map (·.op false) = some none)
  have hrun : Run step Exclusive (start fs.nameNode) es t := .of_exec (by decide +kernel) ht
  have hops : trace step completed (start fs.nameNode) es = ops := by decide +kernel
  exact ⟨t, hrun, hops ▸ (exclusive_linearizable fs hrun).1⟩

end Tracked

end Dss.Fs
