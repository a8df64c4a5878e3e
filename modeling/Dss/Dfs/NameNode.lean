import Dss.Lib.Sort
import Dss.Lib.Stream
import Dss.Lib.UnorderedMap

/-!
# Name node

A `dfs::name_node` knows the files of the file system, by their paths
(`m_metadata`), and the data nodes, by their names (`m_data_nodes`). Each of its
functions owns the mutex of the map it works on, from its first line to its last;
here it is a function of the whole name node. The time is passed to the functions
that read the clock.
-/

namespace Dss.Dfs

open Dss.Lib

/-- A point in time of `std::chrono::system_clock`. -/
abbrev TimePoint := ℤ

structure DataNode where
  nodeName : Bytes
  host : Bytes
  port : UInt16
  capacity : UInt64
  usedSpace : UInt64
  isAlive : Bool
  lastHeartbeat : TimePoint
  deriving DecidableEq, Repr

namespace DataNode

/-- Where the node is reached. -/
def endpoint (node : DataNode) : Bytes × UInt16 := (node.host, node.port)

/-- What the comparator of `select_data_nodes_for_write` calls the available
    space: a difference modulo `2 ^ 64`. -/
def availableSpace (node : DataNode) : UInt64 := node.capacity - node.usedSpace

/-- The comparator, which sorts by available space, descending. -/
def before (a b : DataNode) : Bool := b.availableSpace < a.availableSpace

/-- Merge sort by available space. -/
def mergeSort : StdSort before :=
  .mergeSort (fun a b h => by
      simp only [before, decide_eq_true_eq, decide_eq_false_iff_not, UInt64.not_lt] at h ⊢
      exact UInt64.le_of_lt h)
    fun a b c hab hbc => by
      simp only [before, decide_eq_false_iff_not, UInt64.not_lt] at hab hbc ⊢
      exact UInt64.le_trans hbc hab

end DataNode

structure FileBlock where
  blockId : Bytes
  size : UInt64
  /-- The data nodes where the block is stored. -/
  replicas : List Bytes
  checksum : Bytes
  deriving DecidableEq, Repr

structure FileMetadata where
  path : Bytes
  isDirectory : Bool
  size : UInt64
  createdTime : TimePoint
  modifiedTime : TimePoint
  blocks : List FileBlock
  attributes : UnorderedMap Bytes Bytes
  deriving DecidableEq

structure NameNode where
  /-- `m_metadata`. -/
  metadata : UnorderedMap Bytes FileMetadata := ∅
  /-- `m_data_nodes`. -/
  dataNodes : UnorderedMap Bytes DataNode
  /-- `m_replication_factor`. -/
  replicationFactor : ℕ

namespace NameNode

def create (replicationFactor : ℕ) : NameNode where
  dataNodes := ∅
  replicationFactor

/-! ## Files -/

/-- What `create_file` stores. -/
def newMetadata (path : Bytes) (isDirectory : Bool) (now : TimePoint) : FileMetadata where
  path
  isDirectory
  size := 0
  createdTime := now
  modifiedTime := now
  blocks := []
  attributes := ∅

def createFile (n : NameNode) (path : Bytes) (isDirectory : Bool) (now : TimePoint) :
    NameNode × Bool :=
  if path ∈ n.metadata then (n, false)
  else
    ({ n with metadata := n.metadata.insert path (newMetadata path isDirectory now) }, true)

def deleteFile (n : NameNode) (path : Bytes) : NameNode × Bool :=
  if path ∈ n.metadata then ({ n with metadata := n.metadata.erase path }, true)
  else (n, false)

def renameFile (n : NameNode) (oldPath newPath : Bytes) (now : TimePoint) : NameNode × Bool :=
  match n.metadata.lookup oldPath with
  | none => (n, false)
  | some metadata =>
    if newPath ∈ n.metadata then (n, false)
    else
      let metadata := { metadata with path := newPath, modifiedTime := now }
      ({ n with metadata := (n.metadata.erase oldPath).insert newPath metadata }, true)

/-- What the pointer returned points to. -/
def getMetadata (n : NameNode) (path : Bytes) : Option FileMetadata := n.metadata.lookup path

section

variable (n : NameNode) {path oldPath newPath : Bytes} {isDirectory : Bool} {now : TimePoint}
  {metadata : FileMetadata}

theorem createFile_of_mem (h : path ∈ n.metadata) :
    n.createFile path isDirectory now = (n, false) := by
  rw [createFile, if_pos h]

theorem createFile_of_notMem (h : path ∉ n.metadata) : n.createFile path isDirectory now =
    ({ n with metadata := n.metadata.insert path (newMetadata path isDirectory now) }, true) := by
  rw [createFile, if_neg h]

theorem deleteFile_of_mem (h : path ∈ n.metadata) :
    n.deleteFile path = ({ n with metadata := n.metadata.erase path }, true) := by
  rw [deleteFile, if_pos h]

theorem deleteFile_of_notMem (h : path ∉ n.metadata) : n.deleteFile path = (n, false) := by
  rw [deleteFile, if_neg h]

theorem renameFile_of_notMem (h : oldPath ∉ n.metadata) :
    n.renameFile oldPath newPath now = (n, false) := by
  rw [renameFile, Finmap.lookup_eq_none.2 h]

theorem renameFile_of_mem (hold : oldPath ∈ n.metadata) (hnew : newPath ∈ n.metadata) :
    n.renameFile oldPath newPath now = (n, false) := by
  obtain ⟨metadata, hold⟩ := Finmap.mem_iff.1 hold
  rw [renameFile, hold]
  exact if_pos hnew

theorem renameFile_eq (hold : n.metadata.lookup oldPath = some metadata)
    (hnew : newPath ∉ n.metadata) :
    let metadata := { metadata with path := newPath, modifiedTime := now }
    n.renameFile oldPath newPath now =
      ({ n with metadata := (n.metadata.erase oldPath).insert newPath metadata }, true) := by
  rw [renameFile, hold]
  exact if_neg hnew

/-! ### Calls that return `false` -/

theorem createFile_fst_of_false (h : (n.createFile path isDirectory now).2 = false) :
    (n.createFile path isDirectory now).1 = n := by
  by_cases hmem : path ∈ n.metadata
  · rw [n.createFile_of_mem hmem]
  · rw [n.createFile_of_notMem hmem] at h
    cases h

theorem deleteFile_fst_of_false (h : (n.deleteFile path).2 = false) :
    (n.deleteFile path).1 = n := by
  by_cases hmem : path ∈ n.metadata
  · rw [n.deleteFile_of_mem hmem] at h
    cases h
  · rw [n.deleteFile_of_notMem hmem]

theorem renameFile_fst_of_false (h : (n.renameFile oldPath newPath now).2 = false) :
    (n.renameFile oldPath newPath now).1 = n := by
  cases hold : n.metadata.lookup oldPath with
  | none => rw [n.renameFile_of_notMem (Finmap.lookup_eq_none.1 hold)]
  | some metadata =>
    by_cases hnew : newPath ∈ n.metadata
    · rw [n.renameFile_of_mem (Finmap.mem_of_lookup_eq_some hold) hnew]
    · rw [n.renameFile_eq hold hnew] at h
      cases h

end

/-- What the paths listed start with. -/
def listPrefix (path : Bytes) : Bytes :=
  if path ≠ [] ∧ path.getLast? ≠ some slash then path ++ [slash] else path

/-- What `list_directory` lists for the key `filePath`. -/
def directChild (path filePath : Bytes) : Option Bytes :=
  if listPrefix path <+: filePath ∧ filePath ≠ path then
    let relative := filePath.drop (listPrefix path).length
    if slash ∈ relative then none else some relative
  else none

def listDirectory (n : NameNode) (order : IterationOrder Bytes FileMetadata) (path : Bytes) :
    List Bytes :=
  (order.entries n.metadata).keys.filterMap (directChild path)

/-! ## Data nodes -/

def registerDataNode (n : NameNode) (node : DataNode) : NameNode :=
  { n with dataNodes := n.dataNodes.insert node.nodeName node }

def updateHeartbeat (n : NameNode) (nodeName : Bytes) (now : TimePoint) : NameNode :=
  match n.dataNodes.lookup nodeName with
  | none => n
  | some node =>
    let node := { node with lastHeartbeat := now, isAlive := true }
    { n with dataNodes := n.dataNodes.insert nodeName node }

def selectDataNodesForWrite (n : NameNode) (order : IterationOrder Bytes DataNode)
    (sort : StdSort DataNode.before) (count : ℕ) : List DataNode :=
  let count := if count = 0 then n.replicationFactor else count
  let available := ((order.entries n.dataNodes).map Sigma.snd).filter (·.isAlive)
  let available := sort.sort available
  if available.length > count then available.take count else available

@[simp] theorem replicationFactor_foldl (n : NameNode) (nodes : List DataNode) :
    (nodes.foldl registerDataNode n).replicationFactor = n.replicationFactor := by
  induction nodes generalizing n with
  | nil => rfl
  | cons node nodes ih => exact ih _

@[simp] theorem metadata_foldl (n : NameNode) (nodes : List DataNode) :
    (nodes.foldl registerDataNode n).metadata = n.metadata := by
  induction nodes generalizing n with
  | nil => rfl
  | cons node nodes ih => exact ih _

/-- Of the nodes registered under one name, the last one is left. -/
theorem dataNodes_foldl {name : Bytes} {nodes : List DataNode}
    (hname : ∀ node ∈ nodes, node.nodeName = name) {last : DataNode}
    (hlast : nodes.getLast? = some last) (n : NameNode) :
    (nodes.foldl registerDataNode n).dataNodes = n.dataNodes.insert name last := by
  induction nodes generalizing n with
  | nil => cases hlast
  | cons node nodes ih =>
    have hnode := hname node List.mem_cons_self
    cases nodes with
    | nil =>
      rw [List.getLast?_singleton, Option.some.injEq] at hlast
      rw [← hlast, ← hnode]
      rfl
    | cons node' nodes =>
      rw [List.foldl_cons, ih (fun m hm => hname m (List.mem_cons_of_mem _ hm))
        (by simpa [List.getLast?_cons_cons] using hlast), registerDataNode, hnode,
        Finmap.insert_insert]

end NameNode

end Dss.Dfs
