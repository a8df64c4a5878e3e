import Dss.Lib.Run
import Dss.Lib.Stream
import Mathlib.Logic.Function.Basic

/-!
# Path locks

`distributed_file_system::lock` and `release` by any number of clients on any
paths, at the granularity of acquiring a mutex. Both functions own
`m_locks_mutex` while they are inside, and `lock` acquires the mutex of its path
there. So a client that waits for a path in `lock` keeps the owner of this path
out of `release`, for ever.

* `stuck_of_contended`: this happens as soon as a call of `lock` enters while its
  path is held;
* `exists_run_of_held`: as long as none does, every client that holds a path can
  complete its release;
* `deadlock_iff_contended`: both, for every run.
-/

namespace Dss.Fs

open Dss.Lib

/-- A `std::mutex`: the client that owns it. -/
abbrev Mutex (C : Type) := Option C

/-- Where a client is. It requests a path only while it holds none, and releases
    the path it holds. -/
inductive Pc (P : Type)
  | idle
  /-- In `lock`, before `m_locks_mutex` is acquired. -/
  | lockCalled (path : P)
  /-- In `lock`, owning `m_locks_mutex`, before the mutex of the path is
      acquired. -/
  | lockInside (path : P)
  | holding (path : P)
  /-- In `release`, before `m_locks_mutex` is acquired. -/
  | releaseCalled (path : P)
  /-- In `release`, owning `m_locks_mutex`. -/
  | releaseInside (path : P)
  deriving DecidableEq, Repr

namespace Pc

variable {P : Type}

/-- The client owns `m_locks_mutex`. -/
def Inside : Pc P → Prop
  | .lockInside _ | .releaseInside _ => True
  | _ => False

/-- The path the client holds. -/
def held : Pc P → Option P
  | .holding p | .releaseCalled p | .releaseInside p => some p
  | _ => none

end Pc

/-- The locks of a `distributed_file_system` and its clients. -/
structure PathLocks (C P : Type) where
  /-- `m_locks_mutex`. -/
  locksMutex : Mutex C
  /-- `m_path_locks`. -/
  pathLocks : P → Option (Mutex C)
  pc : C → Pc P

/-- The steps of the clients. -/
inductive LockEvent (C P : Type)
  /-- A client calls `lock`, which does not read `is_shared`. -/
  | callLock (c : C) (path : P)
  | callRelease (c : C) (path : P)
  /-- A client in `lock` or `release` acquires `m_locks_mutex`. In `lock` it then
      finds the mutex of its path, or creates it. -/
  | acquireLocks (c : C)
  /-- A client in `lock` acquires the mutex of its path, and returns. -/
  | acquirePath (c : C)
  /-- A client in `release` unlocks the mutex of its path, and returns. -/
  | unlockPath (c : C)
  deriving DecidableEq, Repr

namespace PathLocks

set_option linter.unusedSectionVars false

variable {C P : Type} [DecidableEq C] [DecidableEq P]

/-- A `distributed_file_system` just constructed, and its clients. -/
def initial (C P : Type) : PathLocks C P where
  locksMutex := none
  pathLocks _ := none
  pc _ := .idle

def setPc (s : PathLocks C P) (c : C) (pc : Pc P) : PathLocks C P :=
  { s with pc := Function.update s.pc c pc }

def setPath (s : PathLocks C P) (path : P) (mutex : Option (Mutex C)) : PathLocks C P :=
  { s with pathLocks := Function.update s.pathLocks path mutex }

def setLocks (s : PathLocks C P) (locksMutex : Mutex C) : PathLocks C P := { s with locksMutex }

/-- Creates the mutex of the path, if there is none. -/
def ensurePath (s : PathLocks C P) (path : P) : PathLocks C P :=
  s.setPath path (some ((s.pathLocks path).getD none))

def step (s : PathLocks C P) : LockEvent C P → Option (PathLocks C P)
  | .callLock c p => if s.pc c = .idle then some (s.setPc c (.lockCalled p)) else none
  | .callRelease c p => if s.pc c = .holding p then some (s.setPc c (.releaseCalled p)) else none
  | .acquireLocks c =>
    if s.locksMutex = none then
      match s.pc c with
      | .lockCalled p =>
        some (((s.setLocks (some c)).ensurePath p).setPc c (.lockInside p))
      | .releaseCalled p => some ((s.setLocks (some c)).setPc c (.releaseInside p))
      | _ => none
    else none
  | .acquirePath c =>
    match s.pc c with
    | .lockInside p =>
      if s.pathLocks p = some none then
        some (((s.setPath p (some (some c))).setLocks none).setPc c (.holding p))
      else none
    | _ => none
  | .unlockPath c =>
    match s.pc c with
    | .releaseInside p =>
      some (((s.setPath p ((s.pathLocks p).map fun _ => none)).setLocks none).setPc c .idle)
    | _ => none

/-- The client `c`, which holds the path and has called `release`, is kept out by
    the client `d`, which waits for the path in `lock`. -/
def Deadlocked (s : PathLocks C P) (c d : C) (path : P) : Prop :=
  s.pathLocks path = some (some c) ∧ s.pc c = .releaseCalled path ∧
    s.locksMutex = some d ∧ s.pc d = .lockInside path

/-- No call of `lock` acquires `m_locks_mutex` while its path is held. -/
def Uncontended (s : PathLocks C P) : LockEvent C P → Prop
  | .acquireLocks d =>
    match s.pc d with
    | .lockCalled p => s.pathLocks p = none ∨ s.pathLocks p = some none
    | _ => True
  | _ => True

instance (s : PathLocks C P) : ∀ e, Decidable (Uncontended s e)
  | .acquireLocks d =>
    match h : s.pc d with
    | .lockCalled p =>
      decidable_of_iff (s.pathLocks p = none ∨ s.pathLocks p = some none) (by simp [Uncontended, h])
    | .idle | .lockInside _ | .holding _ | .releaseCalled _ | .releaseInside _ =>
      isTrue (by simp [Uncontended, h])
  | .callLock _ _ | .callRelease _ _ | .acquirePath _ | .unlockPath _ =>
    inferInstanceAs (Decidable True)

/-! ## Steps -/

/-- The steps from `s`, with the states they lead to. -/
inductive Step (s : PathLocks C P) : LockEvent C P → PathLocks C P → Prop
  | callLock {c : C} {p : P} : s.pc c = .idle →
      Step s (.callLock c p) (s.setPc c (.lockCalled p))
  | callRelease {c : C} {p : P} : s.pc c = .holding p →
      Step s (.callRelease c p) (s.setPc c (.releaseCalled p))
  | enterLock {c : C} {p : P} : s.locksMutex = none → s.pc c = .lockCalled p →
      Step s (.acquireLocks c) (((s.setLocks (some c)).ensurePath p).setPc c (.lockInside p))
  | enterRelease {c : C} {p : P} : s.locksMutex = none → s.pc c = .releaseCalled p →
      Step s (.acquireLocks c) ((s.setLocks (some c)).setPc c (.releaseInside p))
  | acquirePath {c : C} {p : P} : s.pc c = .lockInside p → s.pathLocks p = some none →
      Step s (.acquirePath c)
        (((s.setPath p (some (some c))).setLocks none).setPc c (.holding p))
  | unlockPath {c : C} {p : P} : s.pc c = .releaseInside p →
      Step s (.unlockPath c)
        (((s.setPath p ((s.pathLocks p).map fun _ => none)).setLocks none).setPc c .idle)

variable {s t : PathLocks C P} {e : LockEvent C P} {c d : C} {p q : P} {pc : Pc P}

theorem step_iff : s.step e = some t ↔ Step s e t := by
  constructor
  · intro h
    cases e with
    | callLock c p | callRelease c p =>
      simp only [step, Option.ite_none_right_eq_some, Option.some.injEq] at h
      obtain ⟨hpc, rfl⟩ := h
      first | exact .callLock hpc | exact .callRelease hpc
    | acquireLocks c =>
      simp only [step, Option.ite_none_right_eq_some] at h
      obtain ⟨hlocks, h⟩ := h
      split at h
      next hpc => exact Option.some.inj h ▸ .enterLock hlocks hpc
      next hpc => exact Option.some.inj h ▸ .enterRelease hlocks hpc
      next => cases h
    | acquirePath c =>
      simp only [step] at h
      split at h
      next hpc =>
        rw [Option.ite_none_right_eq_some, Option.some.injEq] at h
        exact h.2 ▸ .acquirePath hpc h.1
      next => cases h
    | unlockPath c =>
      simp only [step] at h
      split at h
      next hpc => exact Option.some.inj h ▸ .unlockPath hpc
      next => cases h
  · rintro (hpc | hpc | ⟨hlocks, hpc⟩ | ⟨hlocks, hpc⟩ | ⟨hpc, hp⟩ | hpc) <;> simp [step, *]

/-! ### What the steps change -/

variable {mutex : Option (Mutex C)} {locksMutex : Mutex C}

@[simp] theorem setPc_pc_self : (s.setPc c pc).pc c = pc := Function.update_self ..

@[simp] theorem setPc_pc_of_ne (h : d ≠ c) : (s.setPc c pc).pc d = s.pc d :=
  Function.update_of_ne h ..

@[simp] theorem setPc_locksMutex : (s.setPc c pc).locksMutex = s.locksMutex := rfl

@[simp] theorem setPc_pathLocks : (s.setPc c pc).pathLocks = s.pathLocks := rfl

@[simp] theorem setPath_pathLocks_self : (s.setPath p mutex).pathLocks p = mutex :=
  Function.update_self ..

@[simp] theorem setPath_pathLocks_of_ne (h : q ≠ p) :
    (s.setPath p mutex).pathLocks q = s.pathLocks q :=
  Function.update_of_ne h ..

@[simp] theorem setPath_locksMutex : (s.setPath p mutex).locksMutex = s.locksMutex := rfl

@[simp] theorem setPath_pc : (s.setPath p mutex).pc = s.pc := rfl

@[simp] theorem setLocks_locksMutex : (s.setLocks locksMutex).locksMutex = locksMutex := rfl

@[simp] theorem setLocks_pathLocks : (s.setLocks locksMutex).pathLocks = s.pathLocks := rfl

@[simp] theorem setLocks_pc : (s.setLocks locksMutex).pc = s.pc := rfl

@[simp] theorem ensurePath_locksMutex : (s.ensurePath p).locksMutex = s.locksMutex := rfl

@[simp] theorem ensurePath_pc : (s.ensurePath p).pc = s.pc := rfl

/-- A mutex just created is owned by nobody. -/
@[simp] theorem ensurePath_eq_some :
    (s.ensurePath p).pathLocks q = some (some c) ↔ s.pathLocks q = some (some c) := by
  rw [ensurePath]
  by_cases hq : q = p
  · subst hq
    cases s.pathLocks q <;> simp
  · simp [hq]

theorem ensurePath_self_ne_none : (s.ensurePath p).pathLocks p ≠ none := by simp [ensurePath]

theorem ensurePath_ne_none (h : s.pathLocks q ≠ none) : (s.ensurePath p).pathLocks q ≠ none := by
  by_cases hq : q = p
  · exact hq ▸ ensurePath_self_ne_none
  · simpa [ensurePath, hq] using h

/-! ## Who owns what -/

/-- The mutexes are owned by the clients whose place in the code says so. -/
structure Owned (s : PathLocks C P) : Prop where
  locks : ∀ c, s.locksMutex = some c ↔ (s.pc c).Inside
  path : ∀ q c, s.pathLocks q = some (some c) ↔ (s.pc c).held = some q
  entry : ∀ c q, s.pc c = .lockInside q → s.pathLocks q ≠ none

theorem owned_initial (C P : Type) : Owned (initial C P) where
  locks c := by simp [initial, Pc.Inside]
  path p c := by simp [initial, Pc.held]
  entry c p h := by cases h

namespace Owned

/-- A step of the client `c` that leaves to the others what they own. -/
theorem change (h : Owned s) (c : C) (hpc : ∀ d, d ≠ c → t.pc d = s.pc d)
    (hlocks : t.locksMutex = some c ↔ (t.pc c).Inside)
    (hlocks' : ∀ d, d ≠ c → (t.locksMutex = some d ↔ s.locksMutex = some d))
    (hpath : ∀ q, t.pathLocks q = some (some c) ↔ (t.pc c).held = some q)
    (hpath' : ∀ q d, d ≠ c → (t.pathLocks q = some (some d) ↔ s.pathLocks q = some (some d)))
    (hentry : ∀ q, t.pc c = .lockInside q → t.pathLocks q ≠ none)
    (hentry' : ∀ q, s.pathLocks q ≠ none → t.pathLocks q ≠ none) : Owned t where
  locks d := by
    by_cases hd : d = c
    · rwa [hd]
    · rw [hlocks' d hd, hpc d hd, h.locks]
  path q d := by
    by_cases hd : d = c
    · rw [hd]
      exact hpath q
    · rw [hpath' q d hd, hpc d hd, h.path]
  entry d q hin := by
    by_cases hd : d = c
    · exact hentry q (hd ▸ hin)
    · exact hentry' q (h.entry d q (hpc d hd ▸ hin))

/-- Only one client is inside. -/
theorem inside_unique (h : Owned s) (hc : (s.pc c).Inside) (hd : (s.pc d).Inside) : c = d :=
  Option.some.inj (((h.locks c).2 hc).symm.trans ((h.locks d).2 hd))

/-- A step keeps the ownership. -/
theorem step (h : Owned s) (hs : Step s e t) : Owned t := by
  cases hs with
  | @callLock c p hpc | @callRelease c p hpc =>
    -- outside before and after
    have hin := h.locks c
    have hheld := fun q => h.path q c
    simp only [hpc] at hin hheld
    refine h.change c (fun d hd => by simp [hd]) ?_ (by simp) ?_ (by simp) (by simp) (by simp)
    · simpa [Pc.Inside] using hin
    · simpa [Pc.held] using hheld
  | @enterLock c p hnone hpc =>
    have hheld := fun q => h.path q c
    simp only [hpc] at hheld
    refine h.change c (fun d hd => by simp [hd]) (by simp [Pc.Inside])
      (fun d hd => by simp [hnone, hd.symm]) ?_ (by simp) ?_ fun q hq => ensurePath_ne_none hq
    · simpa [Pc.held] using hheld
    · -- `lock` has found the mutex of its path or created it
      rintro q hq
      obtain rfl : p = q := by simpa using hq
      exact ensurePath_self_ne_none
  | @enterRelease c p hnone hpc =>
    have hheld := fun q => h.path q c
    simp only [hpc] at hheld
    refine h.change c (fun d hd => by simp [hd]) (by simp [Pc.Inside])
      (fun d hd => by simp [hnone, hd.symm]) ?_ (by simp) (by simp) (by simp)
    simpa [Pc.held] using hheld
  | @acquirePath c p hpc hfree =>
    -- the path passes from nobody to `c`, which gives `m_locks_mutex` back
    have hlocks := (h.locks c).2 (by simp [hpc, Pc.Inside])
    have hheld := fun q => h.path q c
    simp only [hpc] at hheld
    refine h.change c (fun d hd => by simp [hd]) (by simp [Pc.Inside])
      (fun d hd => by simp [hlocks, hd.symm]) (fun q => ?_) (fun q d hd => ?_) (by simp)
      fun q hq => ?_
    · by_cases hqp : q = p
      · simp [hqp, Pc.held]
      · simpa [hqp, Ne.symm hqp, Pc.held] using hheld q
    · by_cases hqp : q = p
      · simp [hqp, hfree, hd.symm]
      · simp [hqp]
    · by_cases hqp : q = p
      · simp [hqp]
      · simpa [hqp] using hq
  | @unlockPath c p hpc =>
    have hlocks := (h.locks c).2 (by simp [hpc, Pc.Inside])
    have hheld := fun q => h.path q c
    simp only [hpc] at hheld
    -- nobody else loses the path, as `c` is the one that holds it
    have howner := (hheld p).2 rfl
    refine h.change c (fun d hd => by simp [hd]) (by simp [Pc.Inside])
      (fun d hd => by simp [hlocks, hd.symm]) (fun q => ?_) (fun q d hd => ?_) (by simp)
      fun q hq => ?_
    · by_cases hqp : q = p
      · simp [hqp, howner, Pc.held]
      · simpa [hqp, Ne.symm hqp, Pc.held] using hheld q
    · by_cases hqp : q = p
      · simp [hqp, howner, hd.symm]
      · simp [hqp]
    · by_cases hqp : q = p
      · simp [hqp, howner]
      · simpa [hqp] using hq

end Owned

/-! ## A call of `lock` that waits for a held path -/

/-- The client `d` owns `m_locks_mutex` and waits for the path that `c` holds. -/
structure Stuck (c d : C) (path : P) (s : PathLocks C P) : Prop where
  owned : Owned s
  waiter : s.pc d = .lockInside path
  holder : s.pc c = .holding path ∨ s.pc c = .releaseCalled path

namespace Stuck

theorem owner (h : Stuck c d p s) : s.pathLocks p = some (some c) := by
  refine (h.owned.path p c).2 ?_
  rcases h.holder with hpc | hpc <;> simp [hpc, Pc.held]

theorem locks (h : Stuck c d p s) : s.locksMutex = some d :=
  (h.owned.locks d).2 (by simp [h.waiter, Pc.Inside])

/-- Neither of the two gets any further, whatever the clients do. -/
theorem step (h : Stuck c d p s) (hs : Step s e t) : Stuck c d p t := by
  have howner := h.owner
  have hlocks := h.locks
  obtain ⟨howned, hd, hc⟩ := h
  have hinside : ∀ {b}, (s.pc b).Inside → b = d := fun hb =>
    howned.inside_unique hb (by simp [hd, Pc.Inside])
  suffices t.pc d = .lockInside p ∧ (t.pc c = .holding p ∨ t.pc c = .releaseCalled p) from
    ⟨howned.step hs, this.1, this.2⟩
  cases hs with
  | @callLock b q hpc =>
    have hbd : d ≠ b := by
      rintro rfl
      simp [hd] at hpc
    have hbc : c ≠ b := by
      rintro rfl
      simp [hpc] at hc
    simpa [hbd, hbc, hd] using hc
  | @callRelease b q hpc =>
    have hbd : d ≠ b := by
      rintro rfl
      simp [hd] at hpc
    by_cases hbc : c = b
    · -- the client that holds the path calls `release`
      subst hbc
      have hpq : p = q := by simpa [hpc, eq_comm] using hc
      simp [hbd, hd, hpq]
    · simpa [hbd, hbc, hd] using hc
  -- nobody enters, as `d` owns `m_locks_mutex`
  | enterLock hnone | enterRelease hnone =>
    rw [hlocks] at hnone
    cases hnone
  -- nobody but `d` could leave, and `d` finds its path held
  | @acquirePath b q hpc hfree =>
    obtain rfl := hinside (b := b) (by simp [hpc, Pc.Inside])
    obtain rfl : q = p := by simpa [hd, eq_comm] using hpc
    rw [howner] at hfree
    cases hfree
  | @unlockPath b q hpc =>
    obtain rfl := hinside (b := b) (by simp [hpc, Pc.Inside])
    simp [hd] at hpc

/-- The client that holds the path never completes its release, and can only come
    to the deadlock. -/
theorem run (h : Stuck c d p s) :
    (∀ es u, Run PathLocks.step always s es u → u.pc c ≠ .idle) ∧
      ∃ es u, Run PathLocks.step always s es u ∧ Deadlocked u c d p := by
  constructor
  · intro es u hrun
    have hu := hrun.invariant (I := Stuck c d p) h fun _ _ _ hI _ hs => hI.step (step_iff.1 hs)
    rcases hu.holder with hpc | hpc <;> simp [hpc]
  · rcases h.holder with hpc | hpc
    · have hs : Step s (.callRelease c p) _ := .callRelease hpc
      have ht := h.step hs
      exact ⟨_, _, .single trivial (step_iff.2 hs), ht.owner, by simp, ht.locks, ht.waiter⟩
    · exact ⟨[], s, .nil, h.owner, hpc, h.locks, h.waiter⟩

end Stuck

/-- A call of `lock` that enters while its path is held is stuck. -/
theorem stuck_of_contended (h : Owned s) (hok : ¬Uncontended s e) (hs : Step s e t) :
    ∃ c d p, s.pathLocks p = some (some c) ∧ Stuck c d p t := by
  have ht := h.step hs
  cases hs with
  | @enterLock d q hnone hpc =>
    simp only [Uncontended, hpc, not_or, ← ne_eq, Option.ne_none_iff_exists'] at hok
    obtain ⟨⟨mutex, hmutex⟩, hok⟩ := hok
    obtain ⟨c, rfl⟩ : ∃ c, mutex = some c :=
      Option.ne_none_iff_exists'.1 (by simpa [hmutex] using hok)
    have howner : s.pathLocks q = some (some c) := hmutex
    have hheld := (h.path q c).1 howner
    have hcd : c ≠ d := by
      rintro rfl
      simp [hpc, Pc.held] at hheld
    -- the owner is not in `release` yet, as nobody owns `m_locks_mutex`
    have hout : ¬(s.pc c).Inside := by
      rw [← h.locks, hnone]
      simp
    refine ⟨c, d, q, howner, ht, by simp, ?_⟩
    rw [setPc_pc_of_ne hcd, ensurePath_pc, setLocks_pc]
    cases hc : s.pc c <;> simp_all [Pc.held, Pc.Inside]
  | enterRelease _ hpc => exact absurd (by simp [Uncontended, hpc]) hok
  | callLock | callRelease | acquirePath | unlockPath => exact absurd trivial hok

/-! ## Releases that complete -/

/-- Nobody waits for a path that is held. -/
def Free (s : PathLocks C P) : Prop :=
  ∀ d p, s.pc d = .lockInside p → s.pathLocks p = some none

/-- A path is still free after a call of `lock` has entered for it: everybody else
    is outside. -/
theorem Free.step (h : Free s) (howned : Owned s) (hok : Uncontended s e) (hs : Step s e t) :
    Free t := by
  intro d p hd
  have hinside : s.pc d = .lockInside p → (s.pc d).Inside := fun hd => by simp [hd, Pc.Inside]
  cases hs with
  | @callLock b q hpc | @callRelease b q hpc =>
    by_cases hdb : d = b
    · simp [hdb] at hd
    · exact h d p (by simpa [hdb] using hd)
  | @enterLock b q hnone hpc =>
    by_cases hdb : d = b
    · -- the client that enters finds its path free
      obtain rfl : q = p := by simpa [hdb] using hd
      simp only [Uncontended, hpc] at hok
      rcases hok with hq | hq <;> simp [ensurePath, hq]
    · have := (howned.locks d).2 (hinside (by simpa [hdb] using hd))
      rw [hnone] at this
      cases this
  | @enterRelease b q hnone hpc =>
    by_cases hdb : d = b
    · simp [hdb] at hd
    · have := (howned.locks d).2 (hinside (by simpa [hdb] using hd))
      rw [hnone] at this
      cases this
  | @acquirePath b q hpc | @unlockPath b q hpc =>
    by_cases hdb : d = b
    · simp [hdb] at hd
    · -- `b` leaves, so nobody else is inside
      exact absurd (howned.inside_unique (hinside (by simpa [hdb] using hd))
        (by simp [hpc, Pc.Inside])) hdb

/-- A client that is inside can leave. -/
theorem exists_leave (howned : Owned s) (hfree : Free s) (hd : s.locksMutex = some d) :
    ∃ e t, Uncontended s e ∧ Step s e t ∧ t.locksMutex = none ∧ ∀ b, b ≠ d → t.pc b = s.pc b := by
  have hin := (howned.locks d).1 hd
  cases hpc : s.pc d with
  | lockInside p =>
    exact ⟨.acquirePath d, _, trivial, .acquirePath hpc (hfree d p hpc), by simp,
      fun b hb => by simp [hb]⟩
  | releaseInside p =>
    exact ⟨.unlockPath d, _, trivial, .unlockPath hpc, by simp, fun b hb => by simp [hb]⟩
  | idle | lockCalled p | holding p | releaseCalled p =>
    rw [hpc] at hin
    exact hin.elim

/-- A client that has called `release` can complete it. -/
theorem exists_run_of_releaseCalled (howned : Owned s) (hfree : Free s)
    (hc : s.pc c = .releaseCalled p) :
    ∃ es t, Run step Uncontended s es t ∧ es.length ≤ 3 ∧ t.pc c = .idle := by
  -- once nobody is inside, two steps are left
  have hrest : ∀ {u : PathLocks C P}, u.locksMutex = none → u.pc c = .releaseCalled p →
      ∃ t, Run step Uncontended u [.acquireLocks c, .unlockPath c] t ∧ t.pc c = .idle := by
    intro u hnone hpc
    have henter : Step u (.acquireLocks c) _ := .enterRelease hnone hpc
    have hunlock : Step ((u.setLocks (some c)).setPc c (.releaseInside p)) (.unlockPath c) _ :=
      .unlockPath (p := p) (by simp)
    exact ⟨_, (Run.single (by simp [Uncontended, hpc]) (step_iff.2 henter)).append
      (.single (e := .unlockPath c) trivial (step_iff.2 hunlock)), by simp⟩
  cases hlocks : s.locksMutex with
  | none =>
    obtain ⟨t, hrun, hidle⟩ := hrest hlocks hc
    exact ⟨_, t, hrun, by simp, hidle⟩
  | some d =>
    -- the one that is inside leaves first
    have hcd : c ≠ d := by
      rintro rfl
      have := (howned.locks c).1 hlocks
      rw [hc] at this
      exact this
    obtain ⟨e, u, hok, hs, hnone, hothers⟩ := exists_leave howned hfree hlocks
    obtain ⟨t, hrun, hidle⟩ := hrest hnone ((hothers c hcd).trans hc)
    exact ⟨_, t, (Run.single hok (step_iff.2 hs)).append hrun, by simp, hidle⟩

/-- A client that holds a path can complete its release. -/
theorem exists_run_of_held (howned : Owned s) (hfree : Free s) (hheld : (s.pc c).held = some p) :
    ∃ es t, Run step Uncontended s es t ∧ es.length ≤ 4 ∧ t.pc c = .idle := by
  cases hpc : s.pc c with
  | holding q =>
    have hs : Step s (.callRelease c q) _ := .callRelease hpc
    obtain ⟨es, t, hrun, hle, hidle⟩ := exists_run_of_releaseCalled (c := c) (p := q)
      (howned.step hs) (hfree.step howned (e := .callRelease c q) trivial hs) (by simp)
    exact ⟨.callRelease c q :: es, t, (Run.single (e := .callRelease c q) trivial
      (step_iff.2 hs)).append hrun, Nat.succ_le_succ hle, hidle⟩
  | releaseCalled q =>
    obtain ⟨es, t, hrun, hle, hidle⟩ := exists_run_of_releaseCalled howned hfree hpc
    exact ⟨es, t, hrun, by omega, hidle⟩
  | releaseInside q =>
    have hs : Step s (.unlockPath c) _ := .unlockPath hpc
    exact ⟨[.unlockPath c], _, .single trivial (step_iff.2 hs), by simp, by simp⟩
  | idle | lockCalled q | lockInside q =>
    rw [hpc] at hheld
    cases hheld

/-! ## Deadlocks -/

/-- Path locks cannot deadlock exactly as long as no call of `lock` enters while
    its path is held: in a run without such a step no client is kept from its
    release by one that waits for its path, and every client that holds a path
    can complete its release; and after such a step, the client that holds the
    path never can, and the deadlock is reachable. -/
theorem deadlock_iff_contended :
    (∀ es (s : PathLocks C P), Run step Uncontended (initial C P) es s →
      (∀ c d p, ¬Deadlocked s c d p) ∧
      ∀ c p, (s.pc c).held = some p →
        ∃ es t, Run step Uncontended s es t ∧ es.length ≤ 4 ∧ t.pc c = .idle) ∧
    ∀ es (s : PathLocks C P) e t, Run step always (initial C P) es s → step s e = some t →
      ¬Uncontended s e → ∃ c d p, s.pathLocks p = some (some c) ∧
        (∀ es u, Run step always t es u → u.pc c ≠ .idle) ∧
        ∃ es u, Run step always t es u ∧ Deadlocked u c d p := by
  constructor
  · -- a deadlocked client waits for a path that is held
    intro es s h
    obtain ⟨howned, hfree⟩ : Owned s ∧ Free s :=
      h.invariant (I := fun s => Owned s ∧ Free s)
        ⟨owned_initial C P, fun d p hd => by cases hd⟩ fun _ _ _ hI hok hs =>
          ⟨hI.1.step (step_iff.1 hs), hI.2.step hI.1 hok (step_iff.1 hs)⟩
    refine ⟨fun c d p hdead => ?_, fun c p => exists_run_of_held howned hfree⟩
    have := hfree d p hdead.2.2.2
    rw [hdead.1] at this
    cases this
  · intro es s e t h hs hok
    have howned : Owned s := h.invariant (I := Owned) (owned_initial C P)
      fun _ _ _ hI _ hs => hI.step (step_iff.1 hs)
    obtain ⟨c, d, p, howner, hstuck⟩ := stuck_of_contended howned hok (step_iff.1 hs)
    exact ⟨c, d, p, howner, hstuck.run.1, hstuck.run.2⟩

/-- Two clients and one path: the second one enters `lock` while the first one
    holds the path, which then calls `release`. -/
theorem exists_deadlock :
    ∃ s : PathLocks ℕ Bytes, Run step always (initial ℕ Bytes)
      [.callLock 0 (ascii "/f"), .acquireLocks 0, .acquirePath 0, .callLock 1 (ascii "/f"),
        .acquireLocks 1, .callRelease 0 (ascii "/f")] s ∧ Deadlocked s 0 1 (ascii "/f") :=
  ⟨_, .of_exec (by decide) rfl, rfl, rfl, rfl, rfl⟩

/-- The client that holds the path can release it, until the other one enters. -/
theorem deadlock_iff_contended_two :
    ∃ s t : PathLocks ℕ Bytes,
      Run step Uncontended (initial ℕ Bytes)
        [.callLock 0 (ascii "/f"), .acquireLocks 0, .acquirePath 0, .callLock 1 (ascii "/f")] s ∧
      (∃ es u, Run step Uncontended s es u ∧ es.length ≤ 4 ∧ u.pc 0 = .idle) ∧
      step s (.acquireLocks 1) = some t ∧ ∃ c d p, s.pathLocks p = some (some c) ∧
        (∀ es u, Run step always t es u → u.pc c ≠ .idle) ∧
        ∃ es u, Run step always t es u ∧ Deadlocked u c d p := by
  have hrun : Run step Uncontended (initial ℕ Bytes)
      [.callLock 0 (ascii "/f"), .acquireLocks 0, .acquirePath 0, .callLock 1 (ascii "/f")] _ :=
    .of_exec (by decide) rfl
  refine ⟨_, _, hrun, (deadlock_iff_contended.1 _ _ hrun).2 0 (ascii "/f") rfl, rfl, ?_⟩
  exact deadlock_iff_contended.2 _ _ (.acquireLocks 1) _ (hrun.mono fun _ _ _ => trivial) rfl
    (by decide)

end PathLocks

end Dss.Fs
