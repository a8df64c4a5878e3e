import Dss.Config.Loading
import Dss.Fs.Operations
import Dss.Lib.Decimal
import Dss.Lib.Run
import Mathlib.Logic.Function.Basic

/-!
# File systems by host and port

`file_system_provider::get` makes a file system for a host and a port when it is first
asked for one, and hands out the same one ever after: a local file system for the host
`localhost`, a distributed one for any other. It knows them by the text `host:port`, and
its users know them by their pointers, here the numbers in which they were made
(`Deployment`).

What it is for is a file system of its own for each host and port (`Directory`). In any
sequence of calls of `get`, and of operations on the file systems it has returned, the
same is returned as there (`provider_refines`): no two hosts and ports have the same
text, and no two texts lead to the same file system.

Of the local file system, the operations that change something are modelled, over what
`boost::filesystem` does to the disk (`BoostDisk`).
-/

namespace Dss.Fs

open Dss.Lib Dss.Dfs Dss.Config

variable {S : Type*}

/-! ## The local file system -/

/-- What `local_file_system` uses of `boost::filesystem` and `boost::iostreams` to change
    a disk with the states `S`, which an error may leave changed. -/
structure BoostDisk (S : Type*) where
  /-- Whether there was no error. -/
  rename : S → Bytes → Bytes → Bool × S
  copy : S → Bytes → Bytes → Bool × S
  /-- Whether there was something to remove, or `none` if there was an error. -/
  remove : S → Bytes → Option Bool × S
  /-- Whether the directory was made, or `none` if there was an error. -/
  createDirectory : S → Bytes → Option Bool × S
  /-- A `file_sink` opened. -/
  openSink : S → Bytes → S

namespace LocalFileSystem

variable (boost : BoostDisk S) (s : S)

def create (path : Bytes) : S := boost.openSink s path

def rename (oldPath newPath : Bytes) : S × Bool :=
  let (done, s) := boost.rename s oldPath newPath
  (s, done)

def remove (path : Bytes) : S × Bool :=
  match boost.remove s path with
  | (none, s) => (s, false)
  | (some result, s) => (s, result)

def copy (src dst : Bytes) : S × Bool :=
  let (done, s) := boost.copy s src dst
  (s, done)

def move (src dst : Bytes) : S × Bool := rename boost s src dst

def mkdir (path : Bytes) : S × Bool :=
  match boost.createDirectory s path with
  | (none, s) => (s, false)
  | (some result, s) => (s, result)

def copyFromLocal (src dst : Bytes) : S × Bool := copy boost s src dst
def moveFromLocal (src dst : Bytes) : S × Bool := move boost s src dst
def copyToLocal (src dst : Bytes) : S × Bool := copy boost s src dst
def moveToLocal (src dst : Bytes) : S × Bool := move boost s src dst

/-- An operation, of which none throws. -/
def run : Operation → S × Bool
  | .within (.create path) => (create boost s path, true)
  | .within (.mkdir path) => mkdir boost s path
  | .within (.remove path) => remove boost s path
  | .within (.rename oldPath newPath) => rename boost s oldPath newPath
  | .within (.move src dst) => move boost s src dst
  | .within (.copy src dst) => copy boost s src dst
  | .copyFromLocal src dst => copyFromLocal boost s src dst
  | .moveFromLocal src dst => moveFromLocal boost s src dst
  | .copyToLocal src dst => copyToLocal boost s src dst
  | .moveToLocal src dst => moveToLocal boost s src dst

end LocalFileSystem

/-! ## File systems -/

/-- What is behind a `file_system_ptr`. -/
inductive FileSystemPtr
  | localDisk
  | distributed (fs : DistributedFileSystem)

/-- What `get` throws: `std::bad_optional_access`, or the `std::invalid_argument` of the
    constructor. -/
inductive GetError
  | badOptionalAccess
  | invalidArgument (what : Bytes)
  deriving DecidableEq

namespace FileSystemPtr

/-- The file system `get` makes for a host. -/
def make (env : Surroundings) (cfg : Configuration) (host : Bytes) :
    Except GetError FileSystemPtr :=
  if host = ascii "localhost" then .ok localDisk
  else
    match cfg.dfs.nameNode with
    | none => .error .badOptionalAccess
    | some nameNode =>
      match DistributedFileSystem.create env nameNode with
      | .error what => .error (.invalidArgument what)
      | .ok fs => .ok (distributed fs)

/-- An operation of a file system, at the time `now`, with the local disk in the state
    `s`. -/
def run (disk : LocalDisk S) (boost : BoostDisk S) (now : TimePoint) (s : S)
    (op : Operation) : FileSystemPtr → FileSystemPtr × S × Except Bytes Bool
  | localDisk =>
    let (s, done) := LocalFileSystem.run boost s op
    (localDisk, s, .ok done)
  | distributed fs =>
    let (w, outcome) := op.run disk now ⟨fs, s⟩
    (distributed w.fs, w.localDisk, outcome)

end FileSystemPtr

/-- The calls on a provider and its file systems, with what they return; `H` is what a
    file system is known by. -/
inductive ProviderEvent (H : Type)
  | get (env : Surroundings) (host : Bytes) (port : UInt64) (reply : Except GetError H)
  | run (fs : H) (op : Operation) (now : TimePoint) (outcome : Except Bytes Bool)

/-! ## The provider -/

structure FileSystemProvider where
  cfg : Configuration
  filesystems : UnorderedMap Bytes ℕ

namespace FileSystemProvider

/-- `fmt::format("{0}:{1}", host, port)`. -/
def hostFormated (host : Bytes) (port : UInt64) : Bytes :=
  host ++ ascii ":" ++ decimal port.toNat

/-- What is there under the text is kept. -/
def append (p : FileSystemProvider) (hostFormated : Bytes) (fs : ℕ) : FileSystemProvider :=
  if hostFormated ∈ p.filesystems then p
  else { p with filesystems := p.filesystems.insert hostFormated fs }

end FileSystemProvider

open FileSystemProvider

/-- A provider, the file systems made so far, and the local disk. -/
structure Deployment (S : Type*) where
  provider : FileSystemProvider
  made : List FileSystemPtr
  disk : S

namespace Deployment

def start (cfg : Configuration) (s : S) : Deployment S where
  provider := ⟨cfg, ∅⟩
  made := []
  disk := s

variable (w : Deployment S)

/-- A file system is made and appended. -/
def add (hostFormated : Bytes) (fs : FileSystemPtr) : Deployment S :=
  { w with
    provider := w.provider.append hostFormated w.made.length
    made := w.made ++ [fs] }

def get (env : Surroundings) (host : Bytes) (port : UInt64) :
    Deployment S × Except GetError ℕ :=
  match w.provider.filesystems.lookup (hostFormated host port) with
  | some i => (w, .ok i)
  | none =>
    match FileSystemPtr.make env w.provider.cfg host with
    | .error e => (w, .error e)
    | .ok fs => (w.add (hostFormated host port) fs, .ok w.made.length)

/-- An operation on the `i`-th file system. -/
def run (disk : LocalDisk S) (boost : BoostDisk S) (now : TimePoint) (i : ℕ)
    (fs : FileSystemPtr) (op : Operation) : Deployment S × Except Bytes Bool :=
  let (fs, s, outcome) := fs.run disk boost now w.disk op
  ({ w with made := w.made.set i fs, disk := s }, outcome)

def step (disk : LocalDisk S) (boost : BoostDisk S) (w : Deployment S) :
    ProviderEvent ℕ → Option (Deployment S)
  | .get env host port reply =>
    let (w, reply') := w.get env host port
    if reply' = reply then some w else none
  | .run i op now outcome =>
    match w.made[i]? with
    | none => none
    | some fs =>
      let (w, outcome') := w.run disk boost now i fs op
      if outcome' = outcome then some w else none

end Deployment

/-! ## A file system for each host and port -/

/-- The file systems there are, and the local disk. -/
structure Directory (S : Type*) where
  files : Bytes × UInt64 → Option FileSystemPtr
  disk : S

namespace Directory

def start (s : S) : Directory S := ⟨fun _ => none, s⟩

variable (d : Directory S)

def get (cfg : Configuration) (env : Surroundings) (host : Bytes) (port : UInt64) :
    Directory S × Except GetError (Bytes × UInt64) :=
  match d.files (host, port) with
  | some _ => (d, .ok (host, port))
  | none =>
    match FileSystemPtr.make env cfg host with
    | .error e => (d, .error e)
    | .ok fs => ({ d with files := Function.update d.files (host, port) fs }, .ok (host, port))

def step (cfg : Configuration) (disk : LocalDisk S) (boost : BoostDisk S)
    (d : Directory S) : ProviderEvent (Bytes × UInt64) → Option (Directory S)
  | .get env host port reply =>
    let (d, reply') := d.get cfg env host port
    if reply' = reply then some d else none
  | .run k op now outcome =>
    match d.files k with
    | none => none
    | some fs =>
      let (fs, s, outcome') := fs.run disk boost now d.disk op
      if outcome' = outcome then some ⟨Function.update d.files k fs, s⟩ else none

end Directory

/-! ## Texts -/

/-- No two hosts and ports have the same text: the port is what follows the last
    colon. -/
theorem hostFormated_inj {host host' : Bytes} {port port' : UInt64}
    (h : hostFormated host port = hostFormated host' port') : host = host' ∧ port = port' := by
  have hdigits : ∀ (host : Bytes) (port : UInt64),
      ((hostFormated host port).reverse.takeWhile isDigit).reverse = decimal port.toNat := by
    intro host port
    have hall : ∀ b ∈ (decimal port.toNat).reverse, isDigit b = true := fun b hb =>
      isDigit_of_mem_decimal (List.mem_reverse.1 hb)
    have hcolon : isDigit ':'.toUInt8 = false := by decide
    rw [hostFormated, List.reverse_append, List.takeWhile_append_of_pos hall, List.reverse_append]
    simp [ascii, hcolon]
  have hdecimal : decimal port.toNat = decimal port'.toNat := by
    rw [← hdigits host, ← hdigits host', h]
  have hport : port = port' := by
    rw [← UInt64.toNat_inj, ← digitsValue_decimal port.toNat, hdecimal, digitsValue_decimal]
  subst hport
  exact ⟨List.append_cancel_right (List.append_cancel_right h), rfl⟩

namespace Deployment

/-- The `i`-th file system is the one of the host and port. -/
def Names (w : Deployment S) (i : ℕ) (k : Bytes × UInt64) : Prop :=
  w.provider.filesystems.lookup (hostFormated k.1 k.2) = some i

end Deployment

/-- The same call, with the same outcome, on the file system of a host and port. -/
inductive Corresponds (names : ℕ → Bytes × UInt64 → Prop) :
    ProviderEvent ℕ → ProviderEvent (Bytes × UInt64) → Prop
  | failed {env host port e} :
      Corresponds names (.get env host port (.error e)) (.get env host port (.error e))
  | got {env host port i} (h : names i (host, port)) :
      Corresponds names (.get env host port (.ok i)) (.get env host port (.ok (host, port)))
  | run {i k op now outcome} (h : names i k) :
      Corresponds names (.run i op now outcome) (.run k op now outcome)

theorem Corresponds.mono {names names' : ℕ → Bytes × UInt64 → Prop}
    (himp : ∀ i k, names i k → names' i k) {e f} (h : Corresponds names e f) :
    Corresponds names' e f := by
  cases h with
  | failed => exact .failed
  | got h => exact .got (himp _ _ h)
  | run h => exact .run (himp _ _ h)

/-- The invariant: a file system has one host and port, which is where the directory has
    it. -/
structure Refines (cfg : Configuration) (w : Deployment S) (d : Directory S) : Prop where
  cfg_eq : w.provider.cfg = cfg
  disk_eq : d.disk = w.disk
  bound : ∀ i k, w.Names i k → i < w.made.length
  unique : ∀ i k k', w.Names i k → w.Names i k' → k = k'
  named : ∀ i < w.made.length, ∃ k, w.Names i k
  files : ∀ i k, w.Names i k → d.files k = w.made[i]?
  files_eq_none : ∀ k, (∀ i, ¬w.Names i k) → d.files k = none

namespace Refines

variable {disk : LocalDisk S} {boost : BoostDisk S} {cfg : Configuration}
  {w w' : Deployment S} {d : Directory S} {i : ℕ} {k : Bytes × UInt64} {fs : FileSystemPtr}

theorem start (cfg : Configuration) (s : S) :
    Refines cfg (Deployment.start cfg s) (Directory.start s) where
  cfg_eq := rfl
  disk_eq := rfl
  bound _ _ h := by cases h
  unique _ _ _ h := by cases h
  named _ h := by cases h
  files _ _ h := by cases h
  files_eq_none _ _ := rfl

/-- A file system is added for a host and port there is none for. -/
theorem names_add (hk : w.provider.filesystems.lookup (hostFormated k.1 k.2) = none)
    {l : Bytes × UInt64} : (w.add (hostFormated k.1 k.2) fs).Names i l ↔
      i = w.made.length ∧ l = k ∨ w.Names i l := by
  have hmem : hostFormated k.1 k.2 ∉ w.provider.filesystems := Finmap.lookup_eq_none.1 hk
  rw [Deployment.Names, Deployment.add, append, if_neg hmem]
  by_cases hl : l = k
  · subst hl
    rw [Finmap.lookup_insert, Deployment.Names, hk]
    simp [eq_comm]
  · have hne : hostFormated l.1 l.2 ≠ hostFormated k.1 k.2 := fun htext =>
      hl (Prod.ext_iff.2 (hostFormated_inj htext))
    rw [Finmap.lookup_insert_of_ne _ hne]
    simp [Deployment.Names, hl]

theorem add (h : Refines cfg w d)
    (hk : w.provider.filesystems.lookup (hostFormated k.1 k.2) = none) (fs : FileSystemPtr) :
    Refines cfg (w.add (hostFormated k.1 k.2) fs)
      { d with files := Function.update d.files k fs } where
  cfg_eq := by
    rw [Deployment.add, append]
    split <;> exact h.cfg_eq
  disk_eq := h.disk_eq
  bound i l hl := by
    rw [Deployment.add, List.length_append, List.length_singleton]
    rcases (names_add hk).1 hl with ⟨rfl, -⟩ | hl
    · omega
    · have := h.bound i l hl
      omega
  unique i l l' hl hl' := by
    rcases (names_add hk).1 hl with ⟨hi, hlk⟩ | hl <;>
      rcases (names_add hk).1 hl' with ⟨hi', hlk'⟩ | hl'
    · rw [hlk, hlk']
    · exact absurd (h.bound i l' hl') (by omega)
    · exact absurd (h.bound i l hl) (by omega)
    · exact h.unique i l l' hl hl'
  named i hi := by
    rw [Deployment.add, List.length_append, List.length_singleton] at hi
    by_cases hlt : i < w.made.length
    · obtain ⟨l, hl⟩ := h.named i hlt
      exact ⟨l, (names_add hk).2 (.inr hl)⟩
    · exact ⟨k, (names_add hk).2 (.inl ⟨by omega, rfl⟩)⟩
  files i l hl := by
    change Function.update d.files k (some fs) l = (w.made ++ [fs])[i]?
    rcases (names_add hk).1 hl with ⟨rfl, rfl⟩ | hold
    · rw [Function.update_self, List.getElem?_concat_length]
    · have hne : l ≠ k := by
        rintro rfl
        cases hk.symm.trans hold
      rw [Function.update_of_ne hne, List.getElem?_append_left (h.bound i l hold)]
      exact h.files i l hold
  files_eq_none l hl := by
    have hne : l ≠ k := fun heq => hl _ ((names_add hk).2 (.inl ⟨rfl, heq⟩))
    change Function.update d.files k (some fs) l = none
    rw [Function.update_of_ne hne]
    exact h.files_eq_none l fun i hi => hl i ((names_add hk).2 (.inr hi))

theorem set (h : Refines cfg w d) (hk : w.Names i k) (fs : FileSystemPtr) (s : S) :
    Refines cfg { w with made := w.made.set i fs, disk := s }
      ⟨Function.update d.files k fs, s⟩ where
  cfg_eq := h.cfg_eq
  disk_eq := rfl
  bound j l hl := (h.bound j l hl).trans_eq (List.length_set).symm
  unique := h.unique
  named j hj := h.named j (hj.trans_eq List.length_set)
  files j l hl := by
    by_cases hlk : l = k
    · subst hlk
      obtain rfl : i = j := Option.some.inj (hk.symm.trans hl)
      change Function.update d.files l (some fs) l = (w.made.set i fs)[i]?
      rw [Function.update_self, List.getElem?_set_self (h.bound i l hk)]
    · have hne : i ≠ j := by
        rintro rfl
        exact hlk (h.unique i l k hl hk)
      change Function.update d.files k (some fs) l = (w.made.set i fs)[j]?
      rw [Function.update_of_ne hlk, List.getElem?_set_ne hne]
      exact h.files j l hl
  files_eq_none l hl := by
    have hne : l ≠ k := by
      rintro rfl
      exact hl i hk
    change Function.update d.files k (some fs) l = none
    rw [Function.update_of_ne hne]
    exact h.files_eq_none l hl

/-- `get` hands out the file system of the host and port, and makes it if need be. -/
theorem get (h : Refines cfg w d) {env : Surroundings} {host : Bytes} {port : UInt64}
    {reply : Except GetError ℕ} (hs : w.step disk boost (.get env host port reply) = some w') :
    (∀ i k, w.Names i k → w'.Names i k) ∧
      ∃ f d', Corresponds w'.Names (.get env host port reply) f ∧
        d.step cfg disk boost f = some d' ∧ Refines cfg w' d' := by
  rw [Deployment.step, Option.ite_none_right_eq_some] at hs
  obtain ⟨rfl, hw⟩ := hs
  obtain rfl := Option.some.inj hw
  cases hlookup : w.provider.filesystems.lookup (hostFormated host port) with
  | some i =>
    have hnames : w.Names i (host, port) := hlookup
    have hget : w.get env host port = (w, .ok i) := by rw [Deployment.get, hlookup]
    have hbound : i < w.made.length := h.bound i _ hnames
    have hfiles : d.files (host, port) = some w.made[i] :=
      (h.files i _ hnames).trans (List.getElem?_eq_getElem hbound)
    rw [hget]
    exact ⟨fun _ _ => id, _, d, .got hnames, by simp [Directory.step, Directory.get, hfiles], h⟩
  | none =>
    have hfiles : d.files (host, port) = none :=
      h.files_eq_none _ fun i hi => by cases hlookup.symm.trans hi
    cases hmake : FileSystemPtr.make env cfg host with
    | error e =>
      have hget : w.get env host port = (w, .error e) := by
        rw [Deployment.get, hlookup, h.cfg_eq, hmake]
      rw [hget]
      refine ⟨fun _ _ => id, _, d, .failed, ?_, h⟩
      simp [Directory.step, Directory.get, hfiles, hmake]
    | ok fs =>
      have hget : w.get env host port =
          (w.add (hostFormated host port) fs, .ok w.made.length) := by
        rw [Deployment.get, hlookup, h.cfg_eq, hmake]
      have hadd : ∀ i k, (w.add (hostFormated host port) fs).Names i k ↔
          i = w.made.length ∧ k = (host, port) ∨ w.Names i k := fun _ _ =>
        names_add (k := (host, port)) hlookup
      have hrefines := h.add (k := (host, port)) hlookup fs
      rw [hget]
      refine ⟨fun i k hi => (hadd i k).2 (.inr hi), _, _,
        .got ((hadd _ _).2 (.inl ⟨rfl, rfl⟩)), ?_, hrefines⟩
      simp [Directory.step, Directory.get, hfiles, hmake]

/-- An operation is one on the file system of a host and port. -/
theorem run (h : Refines cfg w d) {op : Operation} {now : TimePoint}
    {outcome : Except Bytes Bool} (hs : w.step disk boost (.run i op now outcome) = some w') :
    (∀ i k, w.Names i k → w'.Names i k) ∧
      ∃ f d', Corresponds w'.Names (.run i op now outcome) f ∧
        d.step cfg disk boost f = some d' ∧ Refines cfg w' d' := by
  rw [Deployment.step] at hs
  split at hs
  next => cases hs
  next fs hfs =>
    obtain ⟨k, hk⟩ := h.named i (List.getElem?_eq_some_iff.1 hfs).1
    have hfiles : d.files k = some fs := (h.files i k hk).trans hfs
    rw [Option.ite_none_right_eq_some] at hs
    obtain ⟨hout, hw⟩ := hs
    obtain rfl := Option.some.inj hw
    refine ⟨fun _ _ => id, .run k op now outcome, _, .run hk, ?_, h.set hk _ _⟩
    rw [Directory.step, hfiles, h.disk_eq]
    exact if_pos hout

theorem step (h : Refines cfg w d) {e : ProviderEvent ℕ} (hs : w.step disk boost e = some w') :
    (∀ i k, w.Names i k → w'.Names i k) ∧ ∃ f d', Corresponds w'.Names e f ∧
      d.step cfg disk boost f = some d' ∧ Refines cfg w' d' := by
  cases e with
  | get env host port reply => exact h.get hs
  | run i op now outcome => exact h.run hs

/-- A sequence of calls is one on the file systems of hosts and ports. -/
theorem exists_run {s : S} {es : List (ProviderEvent ℕ)}
    (hrun : Run (Deployment.step disk boost) always (Deployment.start cfg s) es w) :
    ∃ fs d, List.Forall₂ (Corresponds w.Names) es fs ∧
      Run (Directory.step cfg disk boost) always (Directory.start s) fs d ∧ Refines cfg w d := by
  induction hrun with
  | nil => exact ⟨[], _, .nil, .nil, start cfg s⟩
  | snoc _ _ hs ih =>
    obtain ⟨fs, d, hfs, hd, h⟩ := ih
    obtain ⟨hmono, f, d', hf, hstep, h'⟩ := h.step hs
    have hfs' : List.Forall₂ (Corresponds _) _ fs := hfs.imp fun _ _ => Corresponds.mono hmono
    exact ⟨fs ++ [f], d', List.rel_append hfs' (.cons hf .nil), .snoc hd trivial hstep, h'⟩

end Refines

/-- In any sequence of calls, each file system handed out is the one of a single host and
    port, and the calls return what they return where there is a file system of its own
    for each host and port. -/
theorem provider_refines (disk : LocalDisk S) (boost : BoostDisk S) (cfg : Configuration)
    (s : S) {es : List (ProviderEvent ℕ)} {w : Deployment S}
    (hrun : Run (Deployment.step disk boost) always (Deployment.start cfg s) es w) :
    (∀ i k k', w.Names i k → w.Names i k' → k = k') ∧
    ∃ fs d, List.Forall₂ (Corresponds w.Names) es fs ∧
      Run (Directory.step cfg disk boost) always (Directory.start s) fs d ∧
      d.disk = w.disk ∧ ∀ i k, w.Names i k → d.files k = w.made[i]? := by
  obtain ⟨fs, d, hfs, hd, h⟩ := Refines.exists_run hrun
  exact ⟨h.unique, fs, d, hfs, hd, h.disk_eq, h.files⟩

/-- A disk on which nothing can be changed. -/
def readOnlyDisk : BoostDisk S where
  rename s _ _ := (false, s)
  copy s _ _ := (false, s)
  remove s _ := (none, s)
  createDirectory s _ := (none, s)
  openSink s _ := s

/-- A directory is made in the file system of `a:1` and found there again, but not in that
    of `a:2`, and not on the local disk. -/
theorem provider_refines_two : ∃ base : Configuration,
    let cfg := { base with
      dfs := { base.dfs with nameNode := some (DistributedFileSystem.configurationOf 1 ["a"]) } }
    let mkdir := Operation.within (.mkdir (ascii "d"))
    let es := [ProviderEvent.get default (ascii "a") 1 (.ok 0), .run 0 mkdir 0 (.ok true),
      .get default (ascii "a") 2 (.ok 1), .get default (ascii "localhost") 1 (.ok 2),
      .get default (ascii "a") 1 (.ok 0), .run 0 mkdir 0 (.ok false), .run 1 mkdir 0 (.ok true),
      .run 2 mkdir 0 (.ok false)]
    ∃ w, Run (Deployment.step memoryDisk readOnlyDisk) always (Deployment.start cfg ∅) es w ∧
      ∃ fs d, List.Forall₂ (Corresponds w.Names) es fs ∧
        Run (Directory.step cfg memoryDisk readOnlyDisk) always (Directory.start ∅) fs d := by
  obtain ⟨base, -⟩ : ∃ base, Configuration.ofJson ⟨fun _ _ => 0, fun _ => false⟩
      (sampleDocument 9000) = .ok base := ⟨_, rfl⟩
  refine ⟨base, ?_⟩
  intro cfg mkdir es
  obtain ⟨w, hw⟩ : ∃ w, exec (Deployment.step memoryDisk readOnlyDisk) (Deployment.start cfg ∅) es =
      some w := ⟨_, rfl⟩
  have hrun : Run (Deployment.step memoryDisk readOnlyDisk) always (Deployment.start cfg ∅) es w :=
    .of_exec (by simp [Allowed, es, always]) hw
  obtain ⟨-, fs, d, hfs, hd, -⟩ := provider_refines memoryDisk readOnlyDisk cfg ∅ hrun
  exact ⟨w, hrun, fs, d, hfs, hd⟩

end Dss.Fs
