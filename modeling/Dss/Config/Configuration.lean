import Dss.Lib.Json

/-!
# Configuration

The configuration and its constructors from a JSON document. A constructor reads its
members in the order they are declared, each with `operator[]` of a const value and a
conversion; the members of type `std::optional` only if `contains` finds their key.
-/

namespace Dss.Config

open Dss.Lib

structure RotateConfiguration where
  maxSize : UInt64
  maxFiles : UInt64
  deriving DecidableEq, Repr

structure AsyncConfiguration where
  threadPoolSize : UInt64
  queueSize : UInt64
  deriving DecidableEq, Repr

structure LoggerConfiguration where
  name : Bytes
  filepath : Bytes
  pattern : Option Bytes
  logLevel : Option Bytes
  consoleOutput : Option Bool
  rotate : Option RotateConfiguration
  async : Option AsyncConfiguration
  deriving DecidableEq, Repr

structure FsConfiguration where
  host : Bytes
  port : UInt16
  deriving DecidableEq, Repr

structure FileConfiguration where
  /-- Downloaded content longer than this is truncated, if it is larger than zero. -/
  limit : UInt64
  isIgnored : Bool
  deriving DecidableEq, Repr

structure DataNodeConfiguration where
  nodeName : Bytes
  dataDir : Bytes
  nodePort : UInt16
  /-- How many copies we try to have at all times. -/
  replication : UInt32
  deriving DecidableEq, Repr

structure DataNodeForNameNode where
  /-- The host address of the data node. -/
  host : Bytes
  /-- The port number of the data node. -/
  port : UInt16
  deriving DecidableEq, Repr

structure NameNodeConfiguration where
  nodeName : Bytes
  dataDir : Bytes
  nameDir : Bytes
  nodePort : UInt16
  /-- How many copies we try to have at all times. -/
  replication : UInt32
  dataNodes : List DataNodeForNameNode
  deriving DecidableEq, Repr

structure DfsConfiguration where
  dataNode : Option DataNodeConfiguration
  nameNode : Option NameNodeConfiguration
  deriving DecidableEq, Repr

structure SortConfiguration where
  factor : UInt32
  buffer : UInt32
  deriving DecidableEq, Repr

structure IoConfiguration where
  sort : SortConfiguration
  fileBufferSize : UInt64
  bytesPerChecksum : UInt64
  mapIndexSkip : UInt64
  skipChecksumErrors : Bool
  deriving DecidableEq, Repr

structure IpcConfiguration where
  timeout : UInt64
  deriving DecidableEq, Repr

structure JobTrackerConfiguration where
  location : Bytes
  infoPort : UInt64
  deriving DecidableEq, Repr

structure TaskTrackerConfiguration where
  outputPort : UInt64
  reportPort : UInt64
  tasksLimit : UInt64
  childHeapSize : UInt64
  taskTimeout : UInt64
  deriving DecidableEq, Repr

structure DirectoriesConfiguration where
  localDir : Bytes
  system : Bytes
  temp : Bytes
  deriving DecidableEq, Repr

structure MapredConfiguration where
  jobTracker : JobTrackerConfiguration
  taskTracker : TaskTrackerConfiguration
  directories : DirectoriesConfiguration
  mapTasks : UInt64
  reduceTasks : UInt64
  combineBufferSize : UInt64
  deriving DecidableEq, Repr

structure Configuration where
  logger : LoggerConfiguration
  fs : FsConfiguration
  file : FileConfiguration
  dfs : DfsConfiguration
  io : IoConfiguration
  ipc : IpcConfiguration
  mapred : MapredConfiguration
  deriving DecidableEq, Repr

/-! ## Reading a member -/

section

variable (cast : Cast) (json : Json) (key : String)

/-- `member(json[key])`, for a member that is read from the value by `read`. -/
def member {α : Type} (read : Json → Except Failure α) : Except Failure α := do
  let value ← json.index (ascii key)
  read value

/-- `if (json.contains(key)) member.emplace(json[key]);` -/
def optional {α : Type} (read : Json → Except Failure α) : Except Failure (Option α) :=
  if json.contains (ascii key) then some <$> member json key read else return none

def toUInt16 : Except Failure UInt16 := Nat.toUInt16 <$> json.toUnsigned cast 16
def toUInt32 : Except Failure UInt32 := Nat.toUInt32 <$> json.toUnsigned cast 32
def toUInt64 : Except Failure UInt64 := Nat.toUInt64 <$> json.toUnsigned cast 64

end

/-! ## The constructors -/

variable (cast : Cast) (json : Json)

def RotateConfiguration.ofJson : Except Failure RotateConfiguration := do
  let maxSize ← member json "max-size" (toUInt64 cast)
  let maxFiles ← member json "max-files" (toUInt64 cast)
  return { maxSize, maxFiles }

def AsyncConfiguration.ofJson : Except Failure AsyncConfiguration := do
  let threadPoolSize ← member json "thread-pool-size" (toUInt64 cast)
  let queueSize ← member json "queue-size" (toUInt64 cast)
  return { threadPoolSize, queueSize }

def LoggerConfiguration.ofJson : Except Failure LoggerConfiguration := do
  let name ← member json "name" Json.toText
  let filepath ← member json "filepath" Json.toText
  let pattern ← optional json "pattern" Json.toText
  let logLevel ← optional json "log-level" Json.toText
  let consoleOutput ← optional json "console-output" Json.toBool
  let rotate ← optional json "rotate" (RotateConfiguration.ofJson cast)
  let async ← optional json "async" (AsyncConfiguration.ofJson cast)
  return { name, filepath, pattern, logLevel, consoleOutput, rotate, async }

def FsConfiguration.ofJson : Except Failure FsConfiguration := do
  let host ← member json "host" Json.toText
  let port ← member json "port" (toUInt16 cast)
  return { host, port }

def FileConfiguration.ofJson : Except Failure FileConfiguration := do
  let limit ← member json "limit" (toUInt64 cast)
  let isIgnored ← member json "ignored" Json.toBool
  return { limit, isIgnored }

def DataNodeConfiguration.ofJson : Except Failure DataNodeConfiguration := do
  let nodeName ← member json "node-name" Json.toText
  let dataDir ← member json "data-dir" Json.toText
  let nodePort ← member json "node-port" (toUInt16 cast)
  let replication ← member json "replication" (toUInt32 cast)
  return { nodeName, dataDir, nodePort, replication }

def DataNodeForNameNode.ofJson : Except Failure DataNodeForNameNode := do
  let host ← member json "host" Json.toText
  let port ← member json "port" (toUInt16 cast)
  return { host, port }

def NameNodeConfiguration.ofJson : Except Failure NameNodeConfiguration := do
  let nodeName ← member json "node-name" Json.toText
  let dataDir ← member json "data-dir" Json.toText
  let nameDir ← member json "name-dir" Json.toText
  let nodePort ← member json "node-port" (toUInt16 cast)
  let replication ← member json "replication" (toUInt32 cast)
  -- without the key, the vector stays empty
  let dataNodes ← optional json "data-nodes" fun dataNodes =>
    dataNodes.elements.mapM (DataNodeForNameNode.ofJson cast)
  return { nodeName, dataDir, nameDir, nodePort, replication, dataNodes := dataNodes.getD [] }

def DfsConfiguration.ofJson : Except Failure DfsConfiguration := do
  let dataNode ← optional json "data-node" (DataNodeConfiguration.ofJson cast)
  let nameNode ← optional json "name-node" (NameNodeConfiguration.ofJson cast)
  return { dataNode, nameNode }

def SortConfiguration.ofJson : Except Failure SortConfiguration := do
  let factor ← member json "factor" (toUInt32 cast)
  let buffer ← member json "buffer" (toUInt32 cast)
  return { factor, buffer }

def IoConfiguration.ofJson : Except Failure IoConfiguration := do
  let sort ← member json "sort" (SortConfiguration.ofJson cast)
  let fileBufferSize ← member json "file-buffer-size" (toUInt64 cast)
  let bytesPerChecksum ← member json "bytes-per-checksum" (toUInt64 cast)
  let mapIndexSkip ← member json "map-index-skip" (toUInt64 cast)
  let skipChecksumErrors ← member json "skip-checksum-errors" Json.toBool
  return { sort, fileBufferSize, bytesPerChecksum, mapIndexSkip, skipChecksumErrors }

def IpcConfiguration.ofJson : Except Failure IpcConfiguration := do
  let timeout ← member json "timeout" (toUInt64 cast)
  return { timeout }

def JobTrackerConfiguration.ofJson : Except Failure JobTrackerConfiguration := do
  let location ← member json "location" Json.toText
  let infoPort ← member json "info-port" (toUInt64 cast)
  return { location, infoPort }

def TaskTrackerConfiguration.ofJson : Except Failure TaskTrackerConfiguration := do
  let outputPort ← member json "output-port" (toUInt64 cast)
  let reportPort ← member json "report-port" (toUInt64 cast)
  let tasksLimit ← member json "tasks-limit" (toUInt64 cast)
  let childHeapSize ← member json "child-heap-size" (toUInt64 cast)
  let taskTimeout ← member json "task-timeout" (toUInt64 cast)
  return { outputPort, reportPort, tasksLimit, childHeapSize, taskTimeout }

def DirectoriesConfiguration.ofJson : Except Failure DirectoriesConfiguration := do
  let localDir ← member json "local" Json.toText
  let system ← member json "system" Json.toText
  let temp ← member json "temp" Json.toText
  return { localDir, system, temp }

def MapredConfiguration.ofJson : Except Failure MapredConfiguration := do
  let jobTracker ← member json "job-tracker" (JobTrackerConfiguration.ofJson cast)
  let taskTracker ← member json "task-tracker" (TaskTrackerConfiguration.ofJson cast)
  let directories ← member json "directories" DirectoriesConfiguration.ofJson
  let mapTasks ← member json "map-tasks" (toUInt64 cast)
  let reduceTasks ← member json "reduce-tasks" (toUInt64 cast)
  let combineBufferSize ← member json "combine-buffer-size" (toUInt64 cast)
  return { jobTracker, taskTracker, directories, mapTasks, reduceTasks, combineBufferSize }

def Configuration.ofJson : Except Failure Configuration := do
  let logger ← member json "logger" (LoggerConfiguration.ofJson cast)
  let fs ← member json "fs" (FsConfiguration.ofJson cast)
  let file ← member json "file" (FileConfiguration.ofJson cast)
  let dfs ← member json "dfs" (DfsConfiguration.ofJson cast)
  let io ← member json "io" (IoConfiguration.ofJson cast)
  let ipc ← member json "ipc" (IpcConfiguration.ofJson cast)
  let mapred ← member json "map-reduce" (MapredConfiguration.ofJson cast)
  return { logger, fs, file, dfs, io, ipc, mapred }

end Dss.Config
