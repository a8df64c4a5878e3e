import Dss.Config.Configuration
import Dss.Dfs.NameNode

/-!
# Distributed file system

The constructor of `distributed_file_system`, which registers the configured data
nodes with a new name node. It leaves their names empty, and the name node knows
its nodes by their names: only the last one is left (`dataNodes_of_create`). So
an accepted configuration can meet its replication factor only if it is one of a
single data node (`meetsReplication_iff`).
-/

namespace Dss.Fs

open Dss.Lib Dss.Dfs Dss.Config

structure DistributedFileSystem where
  /-- `m_name_node`. -/
  nameNode : NameNode
  /-- `m_name_node_config`. -/
  config : NameNodeConfiguration

/-- What the constructor finds when it registers the `i`-th data node: the value
    of `capacity`, which is not initialized, and the time. -/
structure Surroundings where
  capacity : ℕ → UInt64
  now : ℕ → TimePoint
  deriving Inhabited

/-- Where a configured data node is reached. -/
def endpoint (node : DataNodeForNameNode) : Bytes × UInt16 := (node.host, node.port)

namespace DistributedFileSystem

variable (env : Surroundings)

/-- The data node the constructor registers, without a name. -/
def newDataNode (node : DataNodeForNameNode) (i : ℕ) : DataNode where
  nodeName := []
  host := node.host
  port := node.port
  capacity := env.capacity i
  usedSpace := 0
  isAlive := true
  lastHeartbeat := env.now i

/-- The constructor, or the text of the `std::invalid_argument` it throws. -/
def create (cfg : NameNodeConfiguration) : Except Bytes DistributedFileSystem :=
  if cfg.dataNodes.isEmpty then
    .error (ascii "No data nodes configured. " ++
      ascii "A distributed file system requires at least one data node.")
  else if cfg.replication.toNat > cfg.dataNodes.length then
    .error (ascii "Replication factor cannot be greater than the number of data nodes.")
  else
    .ok {
      nameNode := cfg.dataNodes.zipIdx.foldl
        (fun nameNode (node, i) => nameNode.registerDataNode (newDataNode env node i))
        (NameNode.create cfg.replication.toNat)
      config := cfg }

variable {env} {cfg : NameNodeConfiguration} {fs : DistributedFileSystem}

variable (env cfg) in
/-- The data nodes the constructor registers. -/
def newDataNodes : List DataNode :=
  cfg.dataNodes.zipIdx.map fun (node, i) => newDataNode env node i

theorem nodeName_of_mem_newDataNodes {node : DataNode} (h : node ∈ newDataNodes env cfg) :
    node.nodeName = [] := by
  obtain ⟨c, -, rfl⟩ := List.mem_map.1 h
  rfl

theorem getLast?_newDataNodes (hne : cfg.dataNodes ≠ []) : (newDataNodes env cfg).getLast? =
    some (newDataNode env (cfg.dataNodes.getLast hne) (cfg.dataNodes.length - 1)) := by
  rw [newDataNodes, List.getLast?_map, List.getLast?_zipIdx, List.getLast?_eq_some_getLast hne]
  simp

/-- An accepted configuration has a data node, and is not asked for more copies
    than it has data nodes; they are registered one after the other. -/
theorem of_create (h : create env cfg = .ok fs) :
    cfg.dataNodes ≠ [] ∧ cfg.replication.toNat ≤ cfg.dataNodes.length ∧
      fs.nameNode = (newDataNodes env cfg).foldl NameNode.registerDataNode
        (NameNode.create cfg.replication.toNat) := by
  rw [create] at h
  split at h
  next => cases h
  next hne =>
    split at h
    next => cases h
    next hle =>
      obtain rfl := Except.ok.inj h
      refine ⟨by simpa using hne, by simpa using hle, ?_⟩
      rw [newDataNodes, List.foldl_map]

/-- The name node is left with the last data node, under the empty name. -/
theorem dataNodes_of_create (h : create env cfg = .ok fs) :
    ∃ node, cfg.dataNodes.getLast? = some node ∧
      fs.nameNode.dataNodes =
        Finmap.singleton [] (newDataNode env node (cfg.dataNodes.length - 1)) ∧
      fs.nameNode.replicationFactor = cfg.replication.toNat := by
  obtain ⟨hne, -, hfold⟩ := of_create h
  refine ⟨_, List.getLast?_eq_some_getLast hne, ?_, ?_⟩
  · -- all nodes are stored under the empty name
    rw [hfold, NameNode.dataNodes_foldl (fun _ => nodeName_of_mem_newDataNodes)
      (getLast?_newDataNodes hne)]
    rfl
  · rw [hfold, NameNode.replicationFactor_foldl]
    rfl

/-- A new file system has no entries. -/
theorem metadata_of_create (h : create env cfg = .ok fs) : fs.nameNode.metadata = ∅ := by
  obtain ⟨-, -, hfold⟩ := of_create h
  rw [hfold, NameNode.metadata_foldl]
  rfl

/-- What a configuration promises: one node is registered for each endpoint, and
    for a write as many nodes can be selected as there are to be copies, all of
    them alive and different. -/
structure MeetsReplication (cfg : NameNodeConfiguration) (fs : DistributedFileSystem)
    (order : IterationOrder Bytes DataNode) (sort : StdSort DataNode.before) : Prop where
  registered : fs.nameNode.dataNodes.entries.map (·.2.endpoint) =
    ((cfg.dataNodes.map endpoint).dedup : Multiset (Bytes × UInt16))
  length : (fs.nameNode.selectDataNodesForWrite order sort 0).length = cfg.replication.toNat
  alive : ∀ node ∈ fs.nameNode.selectDataNodesForWrite order sort 0, node.isAlive
  distinct : ((fs.nameNode.selectDataNodesForWrite order sort 0).map DataNode.endpoint).Nodup

variable {order : IterationOrder Bytes DataNode} {sort : StdSort DataNode.before}

/-- Only one node is registered. -/
theorem length_of_meetsReplication (h : create env cfg = .ok fs)
    (hdistinct : (cfg.dataNodes.map endpoint).Nodup)
    (hmeets : MeetsReplication cfg fs order sort) : cfg.dataNodes.length = 1 := by
  -- there are as many nodes registered as endpoints
  obtain ⟨node, -, hnodes, -⟩ := dataNodes_of_create h
  have hcard := congrArg Multiset.card hmeets.registered
  rw [hnodes, hdistinct.dedup, Multiset.coe_card, List.length_map, Multiset.card_map] at hcard
  exact hcard.symm

/-- The selection from one node that is alive. -/
theorem selectDataNodesForWrite_singleton {n : NameNode} {name : Bytes} {node : DataNode}
    (hnodes : n.dataNodes = Finmap.singleton name node) (halive : node.isAlive) :
    n.selectDataNodesForWrite order sort 0 = [node].take n.replicationFactor := by
  simp only [NameNode.selectDataNodesForWrite, hnodes, if_true]
  simp [halive]
  omega

/-- An accepted configuration whose data nodes are reached at different endpoints
    can meet its replication factor exactly if there is one data node. -/
theorem meetsReplication_iff (h : create env cfg = .ok fs)
    (hdistinct : (cfg.dataNodes.map endpoint).Nodup) :
    MeetsReplication cfg fs order sort ↔ cfg.dataNodes.length = 1 := by
  refine ⟨length_of_meetsReplication h hdistinct, fun hone => ?_⟩
  obtain ⟨c, hc⟩ := List.length_eq_one_iff.1 hone
  obtain ⟨-, hle, -⟩ := of_create h
  obtain ⟨node, hlast, hnodes, hfactor⟩ := dataNodes_of_create h
  obtain rfl : c = node := by simpa [hc] using hlast
  have hselect : fs.nameNode.selectDataNodesForWrite order sort 0 = _ :=
    selectDataNodesForWrite_singleton hnodes rfl
  rw [hfactor] at hselect
  exact {
    registered := by
      rw [hdistinct.dedup, hnodes, hc]
      rfl
    length := by
      rw [hselect, List.length_take, List.length_singleton, min_eq_left (hone ▸ hle)]
    alive := by
      intro n hn
      rw [hselect] at hn
      rw [List.mem_singleton.1 (List.mem_of_mem_take hn)]
      rfl
    distinct := by
      rw [hselect]
      exact ((List.take_sublist _ _).map _).nodup (List.nodup_singleton _) }

/-- A configuration of data nodes on the hosts `hosts`. -/
def configurationOf (replication : UInt32) (hosts : List String) : NameNodeConfiguration where
  nodeName := ascii "name-node"
  dataDir := ascii "/data"
  nameDir := ascii "/name"
  nodePort := 9000
  replication
  dataNodes := hosts.map fun host => ⟨ascii host, 9001⟩

/-- Of two data nodes only one is registered. -/
theorem not_meetsReplication_two :
    let cfg := configurationOf 2 ["a", "b"]
    ∃ fs, create default cfg = .ok fs ∧ (cfg.dataNodes.map endpoint).Nodup ∧
      ∀ order sort, ¬MeetsReplication cfg fs order sort := by
  intro cfg
  have hcreate : create default cfg = .ok _ := rfl
  have hdistinct : (cfg.dataNodes.map endpoint).Nodup := by decide
  refine ⟨_, hcreate, hdistinct, fun order sort hmeets => ?_⟩
  exact absurd (length_of_meetsReplication hcreate hdistinct hmeets) (by decide)

/-- A single data node can meet its replication factor. -/
theorem meetsReplication_iff_one :
    let cfg := configurationOf 1 ["a"]
    ∃ fs, create default cfg = .ok fs ∧
      (MeetsReplication cfg fs default DataNode.mergeSort ↔ cfg.dataNodes.length = 1) := by
  intro cfg
  have hcreate : create default cfg = .ok _ := rfl
  exact ⟨_, hcreate, meetsReplication_iff hcreate (by decide)⟩

end DistributedFileSystem

end Dss.Fs
