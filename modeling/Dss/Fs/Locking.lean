import Dss.Fs.Linearization
import Dss.Fs.PathLocks

/-!
# Operations under path locks

What the path locks of `distributed_file_system` are for. The operations of several
clients are not atomic on their own (`Clients.Atomic`): another client may take
away the entry a pointer was made to. They are if every client works on the path it
holds, and releases it only when its operation is over (`Disciplined`): in whatever
way the steps of `lock`, `release` and the operations interleave, the operations do
what they do one after the other (`locked_linearizable`). The locks exclude each other
(`PathLocks.Owned`), so no two operations under way are on one path.
-/

namespace Dss.Fs

open Dss.Lib Dss.Dfs

namespace PathLocks

variable {C P : Type} [DecidableEq C] [DecidableEq P] {s t : PathLocks C P} {e : LockEvent C P}
  {c d : C} {path : P}

omit [DecidableEq C] [DecidableEq P] in
/-- Only one client holds a path. -/
theorem Owned.held_unique (h : Owned s) (hc : (s.pc c).held = some path)
    (hd : (s.pc d).held = some path) : c = d :=
  Option.some.inj (Option.some.inj (((h.path path c).2 hc).symm.trans ((h.path path d).2 hd)))

/-- A client holds its path until it calls `release`. -/
theorem holding_step (hs : Step s e t) (h : s.pc c = .holding path)
    (he : e ≠ .callRelease c path) : t.pc c = .holding path := by
  cases hs with
  | @callRelease d q hpc =>
    by_cases hcd : c = d
    · subst hcd
      obtain rfl : q = path := by simpa [h, eq_comm] using hpc
      exact absurd rfl he
    · rwa [setPc_pc_of_ne hcd]
  | @callLock d q hpc | @enterLock d q _ hpc | @enterRelease d q _ hpc | @acquirePath d q hpc
  | @unlockPath d q hpc =>
    have hcd : c ≠ d := by
      rintro rfl
      rw [h] at hpc
      cases hpc
    rwa [setPc_pc_of_ne hcd]

end PathLocks

/-! ## Clients with locks -/

/-- The clients of a `distributed_file_system`: where they are in `lock` and `release`,
    and where in the operations. -/
structure LockedClients (C : Type) where
  locks : PathLocks C Bytes
  clients : Clients C

inductive LockedEvent (C : Type)
  | lock (e : LockEvent C Bytes)
  | file (e : ClientEvent C)
  deriving DecidableEq

/-- The step of an operation. -/
def LockedEvent.file? {C : Type} : LockedEvent C → Option (ClientEvent C)
  | lock _ => none
  | file e => some e

namespace LockedClients

variable {C : Type} [DecidableEq C]

/-- The clients of a name node, before any of them has started. -/
def start (n : NameNode) : LockedClients C where
  locks := .initial C Bytes
  clients := { nameNode := n, version := fun _ => 0, pc := fun _ => .idle }

def step (s : LockedClients C) : LockedEvent C → Option (LockedClients C)
  | .lock e => (s.locks.step e).map fun locks => { s with locks }
  | .file e => (s.clients.step e).map fun clients => { s with clients }

/-- A client starts operations on the path it holds only, and releases no path while
    an operation of it is under way. -/
def Disciplined (s : LockedClients C) : LockedEvent C → Prop
  | .lock (.callRelease c _) => s.clients.pc c = .idle
  | .lock (.callLock _ _) | .lock (.acquireLocks _) | .lock (.acquirePath _)
  | .lock (.unlockPath _) => True
  | .file e => ∀ path ∈ e.paths, s.locks.pc e.client = .holding path

instance (s : LockedClients C) : ∀ e, Decidable (s.Disciplined e)
  | .lock (.callRelease c _) => inferInstanceAs (Decidable (s.clients.pc c = .idle))
  | .lock (.callLock _ _) | .lock (.acquireLocks _) | .lock (.acquirePath _)
  | .lock (.unlockPath _) => inferInstanceAs (Decidable True)
  | .file e => inferInstanceAs (Decidable (∀ path ∈ e.paths, s.locks.pc e.client = .holding path))

/-- The invariant: the clients hold the paths of their operations. -/
structure Guarded (s : LockedClients C) (u : Tracked C) : Prop where
  owned : PathLocks.Owned s.locks
  inv : u.Inv
  clients : u.clients = s.clients
  held : ∀ c op, u.op c = some op → ∀ path ∈ op.paths, s.locks.pc c = .holding path

variable {s t : LockedClients C} {e : LockedEvent C} {es : List (LockedEvent C)}
  {f : ClientEvent C} {clients : Clients C} {l : LockEvent C Bytes}
  {locks : PathLocks C Bytes} {u : Tracked C} {op : FileOperation} {path : Bytes}

omit [DecidableEq C] in
theorem guarded_start (n : NameNode) : (start n : LockedClients C).Guarded (Tracked.start n) where
  owned := PathLocks.owned_initial C Bytes
  inv := .start n
  clients := rfl
  held _ _ hop := by cases hop

namespace Guarded

omit [DecidableEq C] in
/-- An operation that starts is on paths its client holds. -/
theorem holding (h : s.Guarded u) (hok : s.Disciplined (.file f)) (hop : u.opAt f = some op)
    (hpath : path ∈ op.paths) : s.locks.pc f.client = .holding path := by
  cases hstarts : f.starts with
  | none =>
    rw [Tracked.opAt, hstarts, Option.none_or] at hop
    exact h.held _ op hop path hpath
  | some op' =>
    rw [Tracked.opAt, hstarts, Option.some_or] at hop
    obtain rfl := Option.some.inj hop
    exact hok path (Tracked.mem_paths_of_starts hstarts hpath)

omit [DecidableEq C] in
/-- Nobody else has an operation under way on them. -/
theorem exclusive (h : s.Guarded u) (hok : s.Disciplined (.file f)) : u.Exclusive f := by
  intro op hstarts d hd op' hop' path hpath hpath'
  have hown : (s.locks.pc f.client).held = some path := by
    rw [h.holding hok (by rw [Tracked.opAt, hstarts, Option.some_or]) hpath, Pc.held]
  have hother : (s.locks.pc d).held = some path := by
    rw [h.held d op' hop' path hpath', Pc.held]
  exact hd (h.owned.held_unique hother hown)

/-- An operation goes on under its lock. -/
theorem file (h : s.Guarded u) (hok : s.Disciplined (.file f))
    (hs : s.clients.step f = some clients) :
    u.step f = some (u.after f clients) ∧ Guarded { s with clients } (u.after f clients) := by
  have hstep : u.step f = some (u.after f clients) := by
    rw [Tracked.step, h.clients, hs]
    rfl
  refine ⟨hstep, h.owned, h.inv.step (h.exclusive hok) hstep, rfl, fun c op hop path hpath => ?_⟩
  rcases Tracked.of_op_after hop with ⟨rfl, hat⟩ | ⟨-, hop⟩
  · exact h.holding hok hat hpath
  · exact h.held c op hop path hpath

/-- A lock is kept while an operation is under way. -/
theorem lock (h : s.Guarded u) (hok : s.Disciplined (.lock l))
    (hs : s.locks.step l = some locks) : Guarded { s with locks } u where
  owned := h.owned.step (PathLocks.step_iff.1 hs)
  inv := h.inv
  clients := h.clients
  held c op hop path hpath := by
    refine PathLocks.holding_step (PathLocks.step_iff.1 hs) (h.held c op hop path hpath) ?_
    rintro rfl
    have hidle : s.clients.pc c = .idle := hok
    have hreached := h.inv.reached c
    rw [h.clients, hidle, hop] at hreached
    cases hreached

end Guarded

/-- A run under locks, without the steps of `lock` and `release`. -/
theorem exists_tracked {n : NameNode} (h : Run step Disciplined (start n) es t) :
    ∃ u, Run Tracked.step Tracked.Exclusive (Tracked.start n) (es.filterMap LockedEvent.file?) u ∧
      t.Guarded u := by
  induction h with
  | nil => exact ⟨_, .nil, guarded_start n⟩
  | @snoc es s s' e hrun hok hs ih =>
    obtain ⟨u, hu, h⟩ := ih
    rw [List.filterMap_append]
    cases e with
    | lock e =>
      obtain ⟨locks, hlocks, rfl⟩ := Option.map_eq_some_iff.1 hs
      have hnone : [LockedEvent.lock e].filterMap LockedEvent.file? = [] := rfl
      rw [hnone, List.append_nil]
      exact ⟨u, hu, h.lock hok hlocks⟩
    | file e =>
      obtain ⟨clients, hclients, rfl⟩ := Option.map_eq_some_iff.1 hs
      obtain ⟨hstep, h'⟩ := h.file hok hclients
      exact ⟨_, hu.snoc (h.exclusive hok) hstep, h'⟩

/-- Where every client works on the path it holds and keeps it until its operation is
    over, however the steps of the clients interleave, no two clients ever hold the same
    path, and the operations return, and do to the name node, what they do one after the
    other, in the order in which they return. The operations of each client that have
    returned are the first ones it has started, in order. -/
theorem locked_linearizable (fs : DistributedFileSystem)
    (h : Run step Disciplined (start fs.nameNode) es t) :
    let files := es.filterMap LockedEvent.file?
    let ops := trace Tracked.step Tracked.completed (Tracked.start fs.nameNode) files
    Replays Tracked.sequential fs ops { fs with nameNode := t.clients.nameNode } ∧
      (∀ c, (ops.filter (·.1.1 = c)).map (·.1.2.op) <+:
        (files.filter (·.client = c)).filterMap ClientEvent.starts) ∧
      ∀ c d path, (t.locks.pc c).held = some path → (t.locks.pc d).held = some path → c = d := by
  obtain ⟨u, hu, hguarded⟩ := exists_tracked h
  refine ⟨hguarded.clients ▸ Tracked.replays_of_run fs hu, fun c => ?_, fun c d path hc hd =>
    hguarded.owned.held_unique hc hd⟩
  rw [Tracked.started_of_run hu]
  exact List.prefix_append _ _

/-- A client moves a file it has made to the local disk, while the other calls `lock` on
    its path. -/
theorem locked_linearizable_two :
    let fs := DistributedFileSystem.newFileSystem
    let es := [.lock (.callLock false (ascii "a")), .lock (.acquireLocks false),
      .lock (.acquirePath false), .file (.call false (.createFile (ascii "a") false) 1),
      .file (.getMetadata false .moveToLocal (ascii "a")), .lock (.callLock true (ascii "a")),
      .file (.read false false), .file (.deleteCopied false 2)]
    let ops := [((false, ⟨.call (.createFile (ascii "a") false), 1, true⟩), .flag true),
      ((false, ⟨.use .moveToLocal (ascii "a"), 2, true⟩), .flag true)]
    ∃ t, Run step Disciplined (start fs.nameNode) es t ∧
      Replays Tracked.sequential fs ops { fs with nameNode := t.clients.nameNode } := by
  intro fs es ops
  obtain ⟨t, ht, -⟩ := Option.map_eq_some_iff.1 (by decide +kernel :
    (exec step (start fs.nameNode) es).map (·.locks.pc true) = some (.lockCalled (ascii "a")))
  have hrun : Run step Disciplined (start fs.nameNode) es t := .of_exec (by decide +kernel) ht
  have hops : trace Tracked.step Tracked.completed (Tracked.start fs.nameNode)
      (es.filterMap LockedEvent.file?) = ops := by decide +kernel
  exact ⟨t, hrun, hops ▸ (locked_linearizable fs hrun).1⟩

end LockedClients

end Dss.Fs
