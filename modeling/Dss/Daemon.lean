import Dss.Config.Loading
import Dss.Fs.FileSystemProvider

/-!
# The daemon

`main`: reads the command line and the configuration file, sets up the logger, and gets
the file system of the host and port the configuration names. What the daemon uses of
the libraries is a parameter (`Platform`): the parsers of the command line and of JSON
text, and the setup of the logger.

The exit code is 0 exactly if nothing of this fails and the document names a file system
that can be made (`NamesFileSystem`): the local one, or a distributed one with as many
data nodes as there are to be copies, which is the replication converted to 32 bits
(`daemonMain_exits`).
-/

namespace Dss

open Lib Config Fs

/-- What is thrown, by the handler of `main` that catches it. There is one for
    `not_implemented_error` as well, which nothing throws. -/
inductive Thrown
  | spdlogEx
  | exception
  | unrecognized
  deriving DecidableEq, Repr

/-- How something ends that does not return: by an exception, or without a defined
    result. -/
inductive Stop
  | thrown (e : Thrown)
  | undefined
  deriving DecidableEq, Repr

def Stop.ofFailure : Failure → Stop
  | .thrown => .thrown .exception
  | .undefined => .undefined

/-- `core::cmd_line_args`. -/
structure CmdLineArgs where
  /-- Whether `--help` is there. -/
  help : Bool
  /-- What is no option, or the value of one. -/
  unrecognized : List Bytes
  configFilepath : Bytes

def CmdLineArgs.isHelpNeed (arguments : CmdLineArgs) : Bool :=
  arguments.help || arguments.unrecognized.length > 1

/-- What the daemon uses of the libraries and the machine it runs on. -/
structure Platform where
  parseCommandLine : List Bytes → Except Thrown CmdLineArgs
  /-- `nlohmann::json::parse` of the file at a path. -/
  parse : Bytes → Except Thrown Json
  /-- `init_logger`, and the first line logged. -/
  initLogger : LoggerConfiguration → Except Thrown Unit
  cast : Cast
  env : Surroundings

variable (sys : Platform)

def parseConfiguration (filepath : Bytes) : Except Stop Configuration := do
  let data ← (sys.parse filepath).mapError .thrown
  (Configuration.ofJson sys.cast data).mapError .ofFailure

/-- The `try` block of `main`: the exit code it ends with. -/
def tryMain (argv : List Bytes) : Except Stop ℕ := do
  let arguments ← (sys.parseCommandLine argv).mapError .thrown
  if arguments.isHelpNeed then return 2
  else
    let cfg ← parseConfiguration sys arguments.configFilepath
    (sys.initLogger cfg.logger).mapError .thrown
    let _ ← ((Deployment.start cfg ()).get sys.env cfg.fs.host cfg.fs.port.toUInt64).2.mapError
      fun _ => .thrown .exception
    return 0

/-- The exit code, or `none` if it is not defined. -/
def daemonMain (argv : List Bytes) : Option ℕ :=
  match tryMain sys argv with
  | .ok code => some code
  | .error (.thrown .spdlogEx) => some 2
  | .error (.thrown _) => some 1
  | .error .undefined => none

/-! ## What the document says -/

/-- The document names a file system that can be made. The number of copies is the
    replication after its conversion to 32 bits: one of 2³² + 1 is one copy. -/
def NamesFileSystem (cast : Cast) (data : Json) : Prop :=
  follow data [.key (ascii "fs"), .key (ascii "host")] = some (.string (ascii "localhost")) ∨
  ∃ nameNode nodes replication copies,
    follow data [.key (ascii "dfs"), .key (ascii "name-node")] = some nameNode ∧
    nameNode.get? (ascii "data-nodes") = some nodes ∧
    nameNode.get? (ascii "replication") = some replication ∧
    replication.toUnsigned cast 32 = .ok copies ∧
    0 < nodes.elements.length ∧ copies ≤ nodes.elements.length

/-- The daemon is started on a document, without `--help`. -/
def ReadsDocument (argv : List Bytes) (data : Json) : Prop :=
  ∃ arguments, sys.parseCommandLine argv = .ok arguments ∧ ¬arguments.isHelpNeed ∧
    sys.parse arguments.configFilepath = .ok data

section

variable {ε ε' α : Type} {f : ε → ε'} {x : Except ε α} {a : α} {e : ε'}

theorem mapError_eq_ok : x.mapError f = .ok a ↔ x = .ok a := by
  cases x <;> simp [Except.mapError]

theorem mapError_eq_error : x.mapError f = .error e ↔ ∃ e', x = .error e' ∧ f e' = e := by
  cases x <;> simp [Except.mapError]

end

variable {sys} {cast : Cast} {data : Json}

section

variable {α : Type} {read : Json → Except Failure α} {key : String} {a : α} {o : Option α}

theorem member_eq_ok : member data key read = .ok a ↔
    ∃ value, data.get? (ascii key) = some value ∧ read value = .ok a := by
  rw [member, bind_eq_ok]
  simp only [Json.index_eq_ok]

theorem optional_eq_ok : optional data key read = .ok o ↔
    (data.get? (ascii key) = none ∧ o = none) ∨
      ∃ value a, data.get? (ascii key) = some value ∧ read value = .ok a ∧ o = some a := by
  rw [Config.optional]
  cases h : data.get? (ascii key) with
  | none =>
    have hcontains : ¬data.contains (ascii key) = true := by simp [Json.contains, h]
    rw [if_neg hcontains]
    simp [pure, Except.pure, eq_comm]
  | some value =>
    rw [if_pos (Json.contains_eq_true.2 ⟨value, h⟩), map_eq_ok]
    simp only [member_eq_ok, h]
    simp [eq_comm]

end

variable {cfg : Configuration}

theorem follow_key_key {key key' : Bytes} {value : Json} (h : data.get? key = some value) :
    follow data [.key key, .key key'] = value.get? key' := by
  rw [follow, h, Option.bind_some, follow]
  simp only [follow, Option.bind_fun_some]

/-- The members a file system is chosen by, as they are in the document. -/
theorem members_ofJson (h : Configuration.ofJson cast data = .ok cfg) : ∃ fs dfs,
    data.get? (ascii "fs") = some fs ∧ FsConfiguration.ofJson cast fs = .ok cfg.fs ∧
      data.get? (ascii "dfs") = some dfs ∧ DfsConfiguration.ofJson cast dfs = .ok cfg.dfs := by
  simp only [Configuration.ofJson, bind_eq_ok, member_eq_ok, pure, Except.pure,
    Except.ok.injEq] at h
  obtain ⟨_, -, _, ⟨fs, hfs, hfs'⟩, _, -, _, ⟨dfs, hdfs, hdfs'⟩, _, -, _, -, _, -, rfl⟩ := h
  exact ⟨fs, dfs, hfs, hfs', hdfs, hdfs'⟩

/-- The host is the one in the document. -/
theorem host_ofJson (h : Configuration.ofJson cast data = .ok cfg) :
    follow data [.key (ascii "fs"), .key (ascii "host")] = some (.string cfg.fs.host) := by
  obtain ⟨fs, -, hfs, hfs', -⟩ := members_ofJson h
  simp only [FsConfiguration.ofJson, bind_eq_ok, member_eq_ok, pure, Except.pure,
    Except.ok.injEq] at hfs'
  obtain ⟨host, ⟨value, hvalue, hhost⟩, _, -, heq⟩ := hfs'
  rw [follow_key_key hfs, hvalue, ← heq]
  cases value with
  | string s => rw [Except.ok.inj hhost]
  | _ => cases hhost

/-- The name node is the one in the document, if there is one. -/
theorem nameNode_ofJson (h : Configuration.ofJson cast data = .ok cfg) :
    (follow data [.key (ascii "dfs"), .key (ascii "name-node")] = none ∧
      cfg.dfs.nameNode = none) ∨
    ∃ nameNode c, follow data [.key (ascii "dfs"), .key (ascii "name-node")] = some nameNode ∧
      NameNodeConfiguration.ofJson cast nameNode = .ok c ∧ cfg.dfs.nameNode = some c := by
  obtain ⟨-, dfs, -, -, hdfs, hdfs'⟩ := members_ofJson h
  simp only [DfsConfiguration.ofJson, bind_eq_ok, pure, Except.pure, Except.ok.injEq] at hdfs'
  obtain ⟨_, -, nameNode, hnameNode, heq⟩ := hdfs'
  rw [follow_key_key hdfs, ← heq]
  exact optional_eq_ok.1 hnameNode

/-- Its data nodes are as many as are visited under `data-nodes`, and it has the number of
    copies under `replication`. -/
theorem dataNodes_ofJson {nameNode : Json} {c : NameNodeConfiguration}
    (h : NameNodeConfiguration.ofJson cast nameNode = .ok c) :
    (∃ replication, nameNode.get? (ascii "replication") = some replication ∧
      replication.toUnsigned cast 32 = .ok c.replication.toNat) ∧
    ((nameNode.get? (ascii "data-nodes") = none ∧ c.dataNodes = []) ∨
      ∃ nodes, nameNode.get? (ascii "data-nodes") = some nodes ∧
        c.dataNodes.length = nodes.elements.length) := by
  simp only [NameNodeConfiguration.ofJson, bind_eq_ok, member_eq_ok, pure, Except.pure,
    Except.ok.injEq] at h
  obtain ⟨_, -, _, -, _, -, _, -, r, ⟨replication, hreplication, hr⟩, o, ho, rfl⟩ := h
  constructor
  · obtain ⟨copies, hcopies, rfl⟩ := map_eq_ok.1 hr
    have hlt : copies < 2 ^ 32 := Json.toUnsigned_lt hcopies
    refine ⟨replication, hreplication, hcopies.trans ?_⟩
    rw [UInt32.toNat_ofNat_of_lt' hlt]
  · rcases optional_eq_ok.1 ho with ⟨hnone, rfl⟩ | ⟨nodes, a, hsome, ha, rfl⟩
    · exact .inl ⟨hnone, rfl⟩
    · exact .inr ⟨nodes, hsome, (mapM_eq_ok.1 ha).length_eq.symm⟩

/-! ## How the daemon ends -/

theorem exists_create_ok {env : Surroundings} {c : NameNodeConfiguration} :
    (∃ fs, DistributedFileSystem.create env c = .ok fs) ↔
      c.dataNodes ≠ [] ∧ c.replication.toNat ≤ c.dataNodes.length := by
  constructor
  · rintro ⟨fs, hfs⟩
    obtain ⟨hne, hle, -⟩ := DistributedFileSystem.of_create hfs
    exact ⟨hne, hle⟩
  · rintro ⟨hne, hle⟩
    rw [DistributedFileSystem.create, if_neg (by simpa using hne), if_neg (by simpa using hle)]
    exact ⟨_, rfl⟩

/-- A file system is made on the local disk, or with a name node that is configured. -/
theorem exists_make_ok {env : Surroundings} {host : Bytes} :
    (∃ fs, FileSystemPtr.make env cfg host = .ok fs) ↔ host = ascii "localhost" ∨
      ∃ c, cfg.dfs.nameNode = some c ∧ c.dataNodes ≠ [] ∧
        c.replication.toNat ≤ c.dataNodes.length := by
  rw [FileSystemPtr.make]
  split_ifs with hhost
  · simp [hhost]
  · cases hnode : cfg.dfs.nameNode with
    | none => simp [hhost]
    | some c =>
      have hcreate : (∃ fs, DistributedFileSystem.create env c = .ok fs) ↔ _ := exists_create_ok
      simp only [hhost, false_or, Option.some.injEq, exists_eq_left', ← hcreate]
      cases DistributedFileSystem.create env c with
      | ok fs => simp
      | error e => simp

/-- With a configuration that is loaded, a file system can be made exactly if the document
    names one. -/
theorem exists_make_iff {env : Surroundings} (h : Configuration.ofJson cast data = .ok cfg) :
    (∃ fs, FileSystemPtr.make env cfg cfg.fs.host = .ok fs) ↔ NamesFileSystem cast data := by
  rw [exists_make_ok, NamesFileSystem, host_ofJson h]
  refine or_congr (by simp) ?_
  rcases nameNode_ofJson h with ⟨hnone, hnone'⟩ | ⟨nameNode, c, hname, hread, hc⟩
  · simp [hnone, hnone']
  · obtain ⟨⟨replication, hreplication, hcopies⟩, hnodes⟩ := dataNodes_ofJson hread
    rw [hc, hname]
    constructor
    · rintro ⟨_, ⟨⟩, hne, hle⟩
      rcases hnodes with ⟨-, hnil⟩ | ⟨nodes, hnodes, hlength⟩
      · exact absurd hnil hne
      · have hpos : 0 < c.dataNodes.length := List.length_pos_iff.2 hne
        rw [hlength] at hpos hle
        exact ⟨_, nodes, replication, _, rfl, hnodes, hreplication, hcopies, hpos, hle⟩
    · rintro ⟨_, nodes, _, _, ⟨⟩, hnodes', hreplication', hcopies', hpos, hle⟩
      obtain rfl := Option.some.inj (hreplication.symm.trans hreplication')
      obtain rfl := Except.ok.inj (hcopies.symm.trans hcopies')
      rcases hnodes with ⟨hnone, -⟩ | ⟨_, hnodes, hlength⟩
      · cases hnone.symm.trans hnodes'
      · obtain rfl := Option.some.inj (hnodes.symm.trans hnodes')
        rw [← hlength] at hpos hle
        exact ⟨c, rfl, List.length_pos_iff.1 hpos, hle⟩

theorem get_start {env : Surroundings} {host : Bytes} {port : UInt64} :
    ((Deployment.start cfg ()).get env host port).2 =
      (FileSystemPtr.make env cfg host).map fun _ => 0 := by
  have hlookup : (Deployment.start cfg ()).provider.filesystems.lookup
      (FileSystemProvider.hostFormated host port) = none := rfl
  have hcfg : (Deployment.start cfg ()).provider.cfg = cfg := rfl
  rw [Deployment.get, hlookup]
  simp only [hcfg]
  cases FileSystemPtr.make env cfg host <;> rfl

variable {argv : List Bytes} {code : ℕ}

theorem parseConfiguration_eq_ok {filepath : Bytes} :
    parseConfiguration sys filepath = .ok cfg ↔ ∃ data, sys.parse filepath = .ok data ∧
      Configuration.ofJson sys.cast data = .ok cfg := by
  simp only [parseConfiguration, bind_eq_ok, mapError_eq_ok]

theorem parseConfiguration_undefined {filepath : Bytes} :
    parseConfiguration sys filepath = .error .undefined ↔ ∃ data,
      sys.parse filepath = .ok data ∧
        Configuration.ofJson sys.cast data = .error .undefined := by
  have hfailure : ∀ e, Stop.ofFailure e = .undefined ↔ e = .undefined := by
    intro e
    cases e <;> simp [Stop.ofFailure]
  simp [parseConfiguration, bind_eq_error, mapError_eq_ok, mapError_eq_error, hfailure]

theorem exists_map_ok {ε α β : Type} {x : Except ε α} {f : α → β} :
    (∃ b, x.map f = .ok b) ↔ ∃ a, x = .ok a := by
  cases x <;> simp [Except.map]

theorem tryMain_eq_zero : tryMain sys argv = .ok 0 ↔ ∃ data cfg,
    ReadsDocument sys argv data ∧ Configuration.ofJson sys.cast data = .ok cfg ∧
      sys.initLogger cfg.logger = .ok () ∧ NamesFileSystem sys.cast data := by
  have hget : ∀ {data cfg}, Configuration.ofJson sys.cast data = .ok cfg →
      ((∃ i, ((Deployment.start cfg ()).get sys.env cfg.fs.host cfg.fs.port.toUInt64).2 =
        .ok i) ↔ NamesFileSystem sys.cast data) := by
    intro data cfg h
    rw [get_start, exists_map_ok, exists_make_iff h]
  simp only [tryMain, bind_eq_ok, mapError_eq_ok]
  constructor
  · rintro ⟨arguments, harguments, h⟩
    split_ifs at h with hhelp
    · cases h
    · simp only [bind_eq_ok, mapError_eq_ok, parseConfiguration_eq_ok] at h
      obtain ⟨cfg, ⟨data, hparse, hcfg⟩, _, hlogger, i, hi, -⟩ := h
      exact ⟨data, cfg, ⟨arguments, harguments, hhelp, hparse⟩, hcfg, hlogger,
        (hget hcfg).1 ⟨i, hi⟩⟩
  · rintro ⟨data, cfg, ⟨arguments, harguments, hhelp, hparse⟩, hcfg, hlogger, hnames⟩
    refine ⟨arguments, harguments, ?_⟩
    obtain ⟨i, hi⟩ := (hget hcfg).2 hnames
    simp only [if_neg hhelp, bind_eq_ok, mapError_eq_ok, parseConfiguration_eq_ok]
    exact ⟨cfg, ⟨data, hparse, hcfg⟩, (), hlogger, i, hi, rfl⟩

theorem tryMain_undefined : tryMain sys argv = .error .undefined ↔ ∃ data,
    ReadsDocument sys argv data ∧
      Configuration.ofJson sys.cast data = .error .undefined := by
  simp only [tryMain, bind_eq_error, mapError_eq_ok, mapError_eq_error]
  constructor
  · rintro (⟨_, -, ⟨⟩⟩ | ⟨arguments, harguments, h⟩)
    split_ifs at h with hhelp
    · cases h
    · simp only [bind_eq_error, mapError_eq_error, parseConfiguration_undefined] at h
      rcases h with ⟨data, hparse, hcfg⟩ | ⟨cfg, -, ⟨_, -, ⟨⟩⟩ | ⟨_, -, ⟨_, -, ⟨⟩⟩ | ⟨_, -, ⟨⟩⟩⟩⟩
      exact ⟨data, ⟨arguments, harguments, hhelp, hparse⟩, hcfg⟩
  · rintro ⟨data, ⟨arguments, harguments, hhelp, hparse⟩, hcfg⟩
    refine .inr ⟨arguments, harguments, ?_⟩
    rw [if_neg hhelp, bind_eq_error]
    exact .inl (parseConfiguration_undefined.2 ⟨data, hparse, hcfg⟩)

theorem tryMain_le (h : tryMain sys argv = .ok code) : code ≤ 2 := by
  simp only [tryMain, bind_eq_ok] at h
  obtain ⟨arguments, -, h⟩ := h
  split_ifs at h with hhelp
  · cases h
    exact le_rfl
  · simp only [bind_eq_ok] at h
    obtain ⟨_, -, _, -, _, -, h⟩ := h
    cases h
    exact Nat.zero_le _

/-- The exit code is 0 exactly if the daemon is started on a document that is accepted, its
    logger can be set up, and it names a file system that can be made. It is not defined
    exactly if a required key is read from an object that lacks it, and it is at most 2
    otherwise. -/
theorem daemonMain_exits (sys : Platform) (argv : List Bytes) :
    (daemonMain sys argv = some 0 ↔ ∃ data cfg, ReadsDocument sys argv data ∧
      Configuration.ofJson sys.cast data = .ok cfg ∧ sys.initLogger cfg.logger = .ok () ∧
      NamesFileSystem sys.cast data) ∧
    (daemonMain sys argv = none ↔ ∃ data, ReadsDocument sys argv data ∧
      Configuration.fields.ReachesMissing (conversion sys.cast) data) ∧
    ∀ code, daemonMain sys argv = some code → code ≤ 2 := by
  simp only [← tryMain_eq_zero, ← ofJson_undefined, ← tryMain_undefined]
  rw [daemonMain]
  cases hmain : tryMain sys argv with
  | ok code => simpa using tryMain_le hmain
  | error stop =>
    cases stop with
    | undefined => simp
    | thrown e => cases e <;> simp

end Dss
