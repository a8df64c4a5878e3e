import Dss.Config.Configuration
import Dss.Config.Leaves

/-!
# Configuration documents

Each constructor of the configuration does what a `json_struct` with the same fields
does: it succeeds and fails on the same documents, in the same way, and holds the same
scalars (`Configuration.leaves_ofJson`). What is known of a `json_struct` is so known of
the configuration.
-/

namespace Dss.Config

open Dss.Lib

/-- The scalar types of the configuration. -/
inductive ScalarType
  | string
  | boolean
  | uint16
  | uint32
  | uint64
  deriving DecidableEq, Repr

inductive Scalar
  | text (s : Bytes)
  | flag (b : Bool)
  | number (n : ℕ)
  deriving DecidableEq, Repr

variable (cast : Cast)

def convert : ScalarType → Json → Except Failure Scalar
  | .string, json => .text <$> json.toText
  | .boolean, json => .flag <$> json.toBool
  | .uint16, json => (fun n => .number n.toNat) <$> toUInt16 cast json
  | .uint32, json => (fun n => .number n.toNat) <$> toUInt32 cast json
  | .uint64, json => (fun n => .number n.toNat) <$> toUInt64 cast json

theorem toUnsigned_ne_undefined (bits : ℕ) (json : Json) :
    json.toUnsigned cast bits ≠ .error .undefined := by
  intro h
  cases json with
  | float x =>
    rw [Json.toUnsigned] at h
    split at h <;> cases h
  | boolean b =>
    rw [Json.toUnsigned] at h
    split at h <;> cases h
  | _ => cases h

def conversion : Conversion ScalarType Scalar where
  convert := convert cast
  defined type json h := by
    cases type <;> simp only [convert, toUInt16, toUInt32, toUInt64, map_eq_error] at h
    case string => cases json <;> cases h
    case boolean => cases json <;> cases h
    all_goals exact toUnsigned_ne_undefined cast _ json h

/-! ## The fields -/

/-- `json_field_required<T, key>`. -/
def required {S : Type} (key : String) (elem : Elem S) (rest : Fields S) : Fields S :=
  .cons (ascii key) true false elem rest

/-- `json_field_optional<T, key>`. -/
def optionally {S : Type} (key : String) (elem : Elem S) (rest : Fields S) : Fields S :=
  .cons (ascii key) false false elem rest

def RotateConfiguration.fields : Fields ScalarType :=
  required "max-size" (.scalar .uint64) <| required "max-files" (.scalar .uint64) .nil

def AsyncConfiguration.fields : Fields ScalarType :=
  required "thread-pool-size" (.scalar .uint64) <| required "queue-size" (.scalar .uint64) .nil

def LoggerConfiguration.fields : Fields ScalarType :=
  required "name" (.scalar .string) <| required "filepath" (.scalar .string) <|
  optionally "pattern" (.scalar .string) <| optionally "log-level" (.scalar .string) <|
  optionally "console-output" (.scalar .boolean) <|
  optionally "rotate" (.struct RotateConfiguration.fields) <|
  optionally "async" (.struct AsyncConfiguration.fields) .nil

def FsConfiguration.fields : Fields ScalarType :=
  required "host" (.scalar .string) <| required "port" (.scalar .uint16) .nil

def FileConfiguration.fields : Fields ScalarType :=
  required "limit" (.scalar .uint64) <| required "ignored" (.scalar .boolean) .nil

def DataNodeConfiguration.fields : Fields ScalarType :=
  required "node-name" (.scalar .string) <| required "data-dir" (.scalar .string) <|
  required "node-port" (.scalar .uint16) <| required "replication" (.scalar .uint32) .nil

def DataNodeForNameNode.fields : Fields ScalarType :=
  required "host" (.scalar .string) <| required "port" (.scalar .uint16) .nil

def NameNodeConfiguration.fields : Fields ScalarType :=
  required "node-name" (.scalar .string) <| required "data-dir" (.scalar .string) <|
  required "name-dir" (.scalar .string) <| required "node-port" (.scalar .uint16) <|
  required "replication" (.scalar .uint32) <|
  .cons (ascii "data-nodes") false true (.struct DataNodeForNameNode.fields) .nil

def DfsConfiguration.fields : Fields ScalarType :=
  optionally "data-node" (.struct DataNodeConfiguration.fields) <|
  optionally "name-node" (.struct NameNodeConfiguration.fields) .nil

def SortConfiguration.fields : Fields ScalarType :=
  required "factor" (.scalar .uint32) <| required "buffer" (.scalar .uint32) .nil

def IoConfiguration.fields : Fields ScalarType :=
  required "sort" (.struct SortConfiguration.fields) <|
  required "file-buffer-size" (.scalar .uint64) <|
  required "bytes-per-checksum" (.scalar .uint64) <|
  required "map-index-skip" (.scalar .uint64) <|
  required "skip-checksum-errors" (.scalar .boolean) .nil

def IpcConfiguration.fields : Fields ScalarType := required "timeout" (.scalar .uint64) .nil

def JobTrackerConfiguration.fields : Fields ScalarType :=
  required "location" (.scalar .string) <| required "info-port" (.scalar .uint64) .nil

def TaskTrackerConfiguration.fields : Fields ScalarType :=
  required "output-port" (.scalar .uint64) <| required "report-port" (.scalar .uint64) <|
  required "tasks-limit" (.scalar .uint64) <| required "child-heap-size" (.scalar .uint64) <|
  required "task-timeout" (.scalar .uint64) .nil

def DirectoriesConfiguration.fields : Fields ScalarType :=
  required "local" (.scalar .string) <| required "system" (.scalar .string) <|
  required "temp" (.scalar .string) .nil

def MapredConfiguration.fields : Fields ScalarType :=
  required "job-tracker" (.struct JobTrackerConfiguration.fields) <|
  required "task-tracker" (.struct TaskTrackerConfiguration.fields) <|
  required "directories" (.struct DirectoriesConfiguration.fields) <|
  required "map-tasks" (.scalar .uint64) <| required "reduce-tasks" (.scalar .uint64) <|
  required "combine-buffer-size" (.scalar .uint64) .nil

def Configuration.fields : Fields ScalarType :=
  required "logger" (.struct LoggerConfiguration.fields) <|
  required "fs" (.struct FsConfiguration.fields) <|
  required "file" (.struct FileConfiguration.fields) <|
  required "dfs" (.struct DfsConfiguration.fields) <|
  required "io" (.struct IoConfiguration.fields) <|
  required "ipc" (.struct IpcConfiguration.fields) <|
  required "map-reduce" (.struct MapredConfiguration.fields) .nil

/-! ## The scalars of a configuration -/

/-- What is found under a key. -/
def keyed (key : String) (l : List (Path × Scalar)) : List (Path × Scalar) :=
  under (.key (ascii key)) l

/-- What is found under a key that need not be there. -/
def keyedOption {α : Type} (key : String) (o : Option α) (leaves : α → List (Path × Scalar)) :
    List (Path × Scalar) :=
  o.elim [] fun a => keyed key (leaves a)

/-- What is found in the elements of an array, from the `i`-th one on. -/
def indexed (i : ℕ) : List (List (Path × Scalar)) → List (Path × Scalar)
  | [] => []
  | l :: ls => under (.elem i) l ++ indexed (i + 1) ls

def text (s : Bytes) : List (Path × Scalar) := [([], .text s)]
def flag (b : Bool) : List (Path × Scalar) := [([], .flag b)]
def number (n : ℕ) : List (Path × Scalar) := [([], .number n)]

def RotateConfiguration.leaves (c : RotateConfiguration) : List (Path × Scalar) :=
  keyed "max-size" (number c.maxSize.toNat) ++ keyed "max-files" (number c.maxFiles.toNat)

def AsyncConfiguration.leaves (c : AsyncConfiguration) : List (Path × Scalar) :=
  keyed "thread-pool-size" (number c.threadPoolSize.toNat)
    ++ keyed "queue-size" (number c.queueSize.toNat)

def LoggerConfiguration.leaves (c : LoggerConfiguration) : List (Path × Scalar) :=
  keyed "name" (text c.name) ++ keyed "filepath" (text c.filepath)
    ++ keyedOption "pattern" c.pattern text ++ keyedOption "log-level" c.logLevel text
    ++ keyedOption "console-output" c.consoleOutput flag
    ++ keyedOption "rotate" c.rotate RotateConfiguration.leaves
    ++ keyedOption "async" c.async AsyncConfiguration.leaves

def FsConfiguration.leaves (c : FsConfiguration) : List (Path × Scalar) :=
  keyed "host" (text c.host) ++ keyed "port" (number c.port.toNat)

def FileConfiguration.leaves (c : FileConfiguration) : List (Path × Scalar) :=
  keyed "limit" (number c.limit.toNat) ++ keyed "ignored" (flag c.isIgnored)

def DataNodeConfiguration.leaves (c : DataNodeConfiguration) : List (Path × Scalar) :=
  keyed "node-name" (text c.nodeName) ++ keyed "data-dir" (text c.dataDir)
    ++ keyed "node-port" (number c.nodePort.toNat)
    ++ keyed "replication" (number c.replication.toNat)

def DataNodeForNameNode.leaves (c : DataNodeForNameNode) : List (Path × Scalar) :=
  keyed "host" (text c.host) ++ keyed "port" (number c.port.toNat)

def NameNodeConfiguration.leaves (c : NameNodeConfiguration) : List (Path × Scalar) :=
  keyed "node-name" (text c.nodeName) ++ keyed "data-dir" (text c.dataDir)
    ++ keyed "name-dir" (text c.nameDir) ++ keyed "node-port" (number c.nodePort.toNat)
    ++ keyed "replication" (number c.replication.toNat)
    ++ keyed "data-nodes" (indexed 0 (c.dataNodes.map DataNodeForNameNode.leaves))

def DfsConfiguration.leaves (c : DfsConfiguration) : List (Path × Scalar) :=
  keyedOption "data-node" c.dataNode DataNodeConfiguration.leaves
    ++ keyedOption "name-node" c.nameNode NameNodeConfiguration.leaves

def SortConfiguration.leaves (c : SortConfiguration) : List (Path × Scalar) :=
  keyed "factor" (number c.factor.toNat) ++ keyed "buffer" (number c.buffer.toNat)

def IoConfiguration.leaves (c : IoConfiguration) : List (Path × Scalar) :=
  keyed "sort" c.sort.leaves ++ keyed "file-buffer-size" (number c.fileBufferSize.toNat)
    ++ keyed "bytes-per-checksum" (number c.bytesPerChecksum.toNat)
    ++ keyed "map-index-skip" (number c.mapIndexSkip.toNat)
    ++ keyed "skip-checksum-errors" (flag c.skipChecksumErrors)

def IpcConfiguration.leaves (c : IpcConfiguration) : List (Path × Scalar) :=
  keyed "timeout" (number c.timeout.toNat)

def JobTrackerConfiguration.leaves (c : JobTrackerConfiguration) : List (Path × Scalar) :=
  keyed "location" (text c.location) ++ keyed "info-port" (number c.infoPort.toNat)

def TaskTrackerConfiguration.leaves (c : TaskTrackerConfiguration) : List (Path × Scalar) :=
  keyed "output-port" (number c.outputPort.toNat)
    ++ keyed "report-port" (number c.reportPort.toNat)
    ++ keyed "tasks-limit" (number c.tasksLimit.toNat)
    ++ keyed "child-heap-size" (number c.childHeapSize.toNat)
    ++ keyed "task-timeout" (number c.taskTimeout.toNat)

def DirectoriesConfiguration.leaves (c : DirectoriesConfiguration) : List (Path × Scalar) :=
  keyed "local" (text c.localDir) ++ keyed "system" (text c.system) ++ keyed "temp" (text c.temp)

def MapredConfiguration.leaves (c : MapredConfiguration) : List (Path × Scalar) :=
  keyed "job-tracker" c.jobTracker.leaves ++ keyed "task-tracker" c.taskTracker.leaves
    ++ keyed "directories" c.directories.leaves ++ keyed "map-tasks" (number c.mapTasks.toNat)
    ++ keyed "reduce-tasks" (number c.reduceTasks.toNat)
    ++ keyed "combine-buffer-size" (number c.combineBufferSize.toNat)

def Configuration.leaves (c : Configuration) : List (Path × Scalar) :=
  keyed "logger" c.logger.leaves ++ keyed "fs" c.fs.leaves ++ keyed "file" c.file.leaves
    ++ keyed "dfs" c.dfs.leaves ++ keyed "io" c.io.leaves ++ keyed "ipc" c.ipc.leaves
    ++ keyed "map-reduce" c.mapred.leaves

/-! ## The fields read -/

section

/-- The scalars of what is constructed. -/
def Elem.readLeaves (elem : Elem ScalarType) (json : Json) :
    Except Failure (List (Path × Scalar)) :=
  Value.leaves <$> elem.copy (conversion cast) json

def Fields.readLeaves (fields : Fields ScalarType) (json : Json) :
    Except Failure (List (Path × Scalar)) :=
  leavesFields <$> fields.copy (conversion cast) json

variable {cast} {α : Type} {json : Json} {elem : Elem ScalarType} {rest : Fields ScalarType}
  {read : Json → Except Failure α} {leaves : α → List (Path × Scalar)}

theorem readLeaves_string (value : Json) :
    (Elem.scalar .string).readLeaves cast value = text <$> value.toText := by
  simp only [Elem.readLeaves, Elem.copy, conversion, convert, Functor.map_map]
  rfl

theorem readLeaves_boolean (value : Json) :
    (Elem.scalar .boolean).readLeaves cast value = flag <$> value.toBool := by
  simp only [Elem.readLeaves, Elem.copy, conversion, convert, Functor.map_map]
  rfl

theorem readLeaves_uint16 (value : Json) : (Elem.scalar .uint16).readLeaves cast value =
    (fun n => number n.toNat) <$> toUInt16 cast value := by
  simp only [Elem.readLeaves, Elem.copy, conversion, convert, Functor.map_map]
  rfl

theorem readLeaves_uint32 (value : Json) : (Elem.scalar .uint32).readLeaves cast value =
    (fun n => number n.toNat) <$> toUInt32 cast value := by
  simp only [Elem.readLeaves, Elem.copy, conversion, convert, Functor.map_map]
  rfl

theorem readLeaves_uint64 (value : Json) : (Elem.scalar .uint64).readLeaves cast value =
    (fun n => number n.toNat) <$> toUInt64 cast value := by
  simp only [Elem.readLeaves, Elem.copy, conversion, convert, Functor.map_map]
  rfl

theorem readLeaves_struct {fields : Fields ScalarType}
    (h : ∀ value, fields.readLeaves cast value = leaves <$> read value) (value : Json) :
    (Elem.struct fields).readLeaves cast value = leaves <$> read value := by
  rw [← h]
  simp only [Elem.readLeaves, Elem.copy, Fields.readLeaves, Functor.map_map, Value.leaves]

@[simp] theorem readLeaves_nil : Fields.nil.readLeaves cast json = pure [] := rfl

/-- A field in front of others, by the scalars it holds itself. -/
theorem readLeaves_cons {name : Bytes} {req isArray : Bool} {x : Except Failure α}
    (leaves : α → List (Path × Scalar))
    (h : Value.leaves <$> copyField name (elem.copy (conversion cast)) json req isArray =
      leaves <$> x) :
    (Fields.cons name req isArray elem rest).readLeaves cast json = do
      let a ← x
      let ls ← rest.readLeaves cast json
      return under (.key name) (leaves a) ++ ls := by
  rw [← bind_map_left leaves x fun l => do
    let ls ← rest.readLeaves cast json
    return under (.key name) l ++ ls, ← h]
  simp only [Fields.readLeaves, Fields.copy, map_bind, map_pure, bind_map_left, leavesFields,
    leavesField]

/-- A required field is read as a member is. -/
theorem readLeaves_required (h : ∀ value, elem.readLeaves cast value = leaves <$> read value)
    (key : String) : (required key elem rest).readLeaves cast json = do
      let a ← member json key read
      let ls ← rest.readLeaves cast json
      return keyed key (leaves a) ++ ls := by
  simp only [Elem.readLeaves] at h
  refine readLeaves_cons leaves ?_
  simp only [copyField, copyRequired, member, map_bind, h]

theorem keyedOption_eq (key : String) (o : Option α) :
    keyedOption key o leaves = under (.key (ascii key)) (o.elim [] leaves) := by
  cases o <;> rfl

/-- An optional field is read as an optional member is. -/
theorem readLeaves_optionally (h : ∀ value, elem.readLeaves cast value = leaves <$> read value)
    (key : String) : (optionally key elem rest).readLeaves cast json = do
      let o ← optional json key read
      let ls ← rest.readLeaves cast json
      return keyedOption key o leaves ++ ls := by
  simp only [Elem.readLeaves] at h
  simp only [keyedOption_eq]
  refine readLeaves_cons (fun o : Option α => o.elim [] leaves) ?_
  rw [optional, copyField, copyOptional]
  split_ifs
  · simp only [member, map_bind, h, Functor.map_map, Option.elim]
  · rfl

theorem leavesArray_eq (i : ℕ) (values : List (Value Scalar)) :
    leavesArray i values = indexed i (values.map Value.leaves) := by
  induction values generalizing i with
  | nil => rfl
  | cons value values ih => rw [leavesArray, ih, List.map_cons, indexed]

/-- So is an optional array. -/
theorem readLeaves_array (h : ∀ value, elem.readLeaves cast value = leaves <$> read value)
    (key : String) : (Fields.cons (ascii key) false true elem rest).readLeaves cast json = do
      let o ← optional json key fun array => array.elements.mapM read
      let ls ← rest.readLeaves cast json
      return keyedOption key o (fun as => indexed 0 (as.map leaves)) ++ ls := by
  simp only [Elem.readLeaves] at h
  have harray : ∀ array : Json,
      indexed 0 <$> List.map Value.leaves <$> array.elements.mapM (elem.copy (conversion cast)) =
        indexed 0 <$> List.map leaves <$> array.elements.mapM read := fun array => by
    rw [map_mapM, map_mapM]
    simp only [h]
  simp only [Functor.map_map] at harray
  simp only [keyedOption_eq]
  refine readLeaves_cons
    (fun o : Option (List α) => o.elim [] fun as => indexed 0 (as.map leaves)) ?_
  rw [optional, copyField, copyOptionalArray]
  split_ifs
  · simp only [member, map_bind, bind_pure_comp, Functor.map_map, Value.leaves, leavesArray_eq,
      harray, Option.elim]
  · rfl

end

/-! ## The constructors read them -/

variable {cast} (json : Json)

theorem RotateConfiguration.leaves_ofJson :
    fields.readLeaves cast json = leaves <$> ofJson cast json := by
  simp [fields, readLeaves_required readLeaves_uint64, ofJson, map_bind, leaves]

theorem AsyncConfiguration.leaves_ofJson :
    fields.readLeaves cast json = leaves <$> ofJson cast json := by
  simp [fields, readLeaves_required readLeaves_uint64, ofJson, map_bind, leaves]

theorem LoggerConfiguration.leaves_ofJson :
    fields.readLeaves cast json = leaves <$> ofJson cast json := by
  simp [fields, readLeaves_required readLeaves_string, readLeaves_optionally readLeaves_string,
    readLeaves_optionally readLeaves_boolean,
    readLeaves_optionally (readLeaves_struct RotateConfiguration.leaves_ofJson),
    readLeaves_optionally (readLeaves_struct AsyncConfiguration.leaves_ofJson), ofJson, map_bind,
    leaves]

theorem FsConfiguration.leaves_ofJson :
    fields.readLeaves cast json = leaves <$> ofJson cast json := by
  simp [fields, readLeaves_required readLeaves_string, readLeaves_required readLeaves_uint16,
    ofJson, map_bind, leaves]

theorem FileConfiguration.leaves_ofJson :
    fields.readLeaves cast json = leaves <$> ofJson cast json := by
  simp [fields, readLeaves_required readLeaves_uint64, readLeaves_required readLeaves_boolean,
    ofJson, map_bind, leaves]

theorem DataNodeConfiguration.leaves_ofJson :
    fields.readLeaves cast json = leaves <$> ofJson cast json := by
  simp [fields, readLeaves_required readLeaves_string, readLeaves_required readLeaves_uint16,
    readLeaves_required readLeaves_uint32, ofJson, map_bind, leaves]

theorem DataNodeForNameNode.leaves_ofJson :
    fields.readLeaves cast json = leaves <$> ofJson cast json := by
  simp [fields, readLeaves_required readLeaves_string, readLeaves_required readLeaves_uint16,
    ofJson, map_bind, leaves]

/-- The vector of a name node is empty where the array is not there. -/
theorem keyedOption_getD {α : Type} (key : String) (o : Option (List α))
    (leaves : α → List (Path × Scalar)) :
    keyedOption key o (fun as => indexed 0 (as.map leaves)) =
      keyed key (indexed 0 ((o.getD []).map leaves)) := by
  cases o <;> rfl

theorem NameNodeConfiguration.leaves_ofJson :
    fields.readLeaves cast json = leaves <$> ofJson cast json := by
  simp [fields, readLeaves_required readLeaves_string, readLeaves_required readLeaves_uint16,
    readLeaves_required readLeaves_uint32,
    readLeaves_array (readLeaves_struct DataNodeForNameNode.leaves_ofJson), keyedOption_getD,
    ofJson, map_bind, leaves]

theorem DfsConfiguration.leaves_ofJson :
    fields.readLeaves cast json = leaves <$> ofJson cast json := by
  simp [fields, readLeaves_optionally (readLeaves_struct DataNodeConfiguration.leaves_ofJson),
    readLeaves_optionally (readLeaves_struct NameNodeConfiguration.leaves_ofJson), ofJson, map_bind,
    leaves]

theorem SortConfiguration.leaves_ofJson :
    fields.readLeaves cast json = leaves <$> ofJson cast json := by
  simp [fields, readLeaves_required readLeaves_uint32, ofJson, map_bind, leaves]

theorem IoConfiguration.leaves_ofJson :
    fields.readLeaves cast json = leaves <$> ofJson cast json := by
  simp [fields, readLeaves_required (readLeaves_struct SortConfiguration.leaves_ofJson),
    readLeaves_required readLeaves_uint64, readLeaves_required readLeaves_boolean, ofJson, map_bind,
    leaves]

theorem IpcConfiguration.leaves_ofJson :
    fields.readLeaves cast json = leaves <$> ofJson cast json := by
  simp [fields, readLeaves_required readLeaves_uint64, ofJson, leaves]

theorem JobTrackerConfiguration.leaves_ofJson :
    fields.readLeaves cast json = leaves <$> ofJson cast json := by
  simp [fields, readLeaves_required readLeaves_string, readLeaves_required readLeaves_uint64,
    ofJson, map_bind, leaves]

theorem TaskTrackerConfiguration.leaves_ofJson :
    fields.readLeaves cast json = leaves <$> ofJson cast json := by
  simp [fields, readLeaves_required readLeaves_uint64, ofJson, map_bind, leaves]

theorem DirectoriesConfiguration.leaves_ofJson :
    fields.readLeaves cast json = leaves <$> ofJson json := by
  simp [fields, readLeaves_required readLeaves_string, ofJson, map_bind, leaves]

theorem MapredConfiguration.leaves_ofJson :
    fields.readLeaves cast json = leaves <$> ofJson cast json := by
  simp [fields, readLeaves_required (readLeaves_struct JobTrackerConfiguration.leaves_ofJson),
    readLeaves_required (readLeaves_struct TaskTrackerConfiguration.leaves_ofJson),
    readLeaves_required (readLeaves_struct DirectoriesConfiguration.leaves_ofJson),
    readLeaves_required readLeaves_uint64, ofJson, map_bind, leaves]

/-- A configuration is read as a `json_struct` with its fields is. -/
theorem Configuration.leaves_ofJson :
    fields.readLeaves cast json = leaves <$> ofJson cast json := by
  simp [fields, readLeaves_required (readLeaves_struct LoggerConfiguration.leaves_ofJson),
    readLeaves_required (readLeaves_struct FsConfiguration.leaves_ofJson),
    readLeaves_required (readLeaves_struct FileConfiguration.leaves_ofJson),
    readLeaves_required (readLeaves_struct DfsConfiguration.leaves_ofJson),
    readLeaves_required (readLeaves_struct IoConfiguration.leaves_ofJson),
    readLeaves_required (readLeaves_struct IpcConfiguration.leaves_ofJson),
    readLeaves_required (readLeaves_struct MapredConfiguration.leaves_ofJson), ofJson, map_bind,
    leaves]

end Dss.Config
