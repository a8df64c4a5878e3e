import Dss.Dfs.NameNode
import Mathlib.Data.Set.Card

/-!
# Selecting data nodes for a write

`name_node::select_data_nodes_for_write` takes the first of the alive data nodes,
sorted by the space they have left. Which nodes are registered, and which of them
are alive, is told by the calls that led to the name node (`AliveNode`): the last
registration under a name counts, and a heartbeat since then.

The comparator subtracts modulo `2 ^ 64`. So a node that uses more than its
capacity is sorted as if it had almost all space left (`availableSpace`), though
it has none (`space`), and the nodes selected are the roomiest exactly if every
such node is sorted behind those with space left, or is not selected
(`selectsRoomiest_iff`).
-/

namespace Dss.Dfs

open Dss.Lib

namespace DataNode

/-- The space that is left: none if more is used than there is. -/
def space (node : DataNode) : ℕ := node.capacity.toNat - node.usedSpace.toNat

variable {a b : DataNode}

theorem space_eq_zero (h : a.capacity < a.usedSpace) : a.space = 0 :=
  Nat.sub_eq_zero_of_le (UInt64.lt_iff_toNat_lt.1 h).le

theorem space_eq (h : ¬a.capacity < a.usedSpace) : a.space = a.availableSpace.toNat :=
  (UInt64.toNat_sub_of_le _ _ (UInt64.not_lt.1 h)).symm

/-- The comparator sees no less space than there is. -/
theorem space_le : a.space ≤ a.availableSpace.toNat := by
  by_cases h : a.capacity < a.usedSpace
  · rw [space_eq_zero h]
    exact Nat.zero_le _
  · rw [space_eq h]

theorem before_eq_false : before b a = false ↔ b.availableSpace ≤ a.availableSpace := by
  rw [before, decide_eq_false_iff_not, UInt64.not_lt]

/-! ## The first of a sorted list -/

variable {l : List DataNode} {k : ℕ}

/-- The first `k` nodes are sorted by the space that is left, and no other node
    has more left than one of them. -/
structure TakesRoomiest (sort : StdSort before) (l : List DataNode) (k : ℕ) : Prop where
  sorted : ((sort.sort l).take k).Pairwise fun a b => b.space ≤ a.space
  roomiest : ∀ b ∈ l, b ∉ (sort.sort l).take k → ∀ a ∈ (sort.sort l).take k, b.space ≤ a.space

/-- A node that uses more than its capacity is sorted behind the nodes with space
    left, or there are `k` nodes in front of it. -/
def OverfullLast (l : List DataNode) (k : ℕ) : Prop :=
  ∀ a ∈ l, ∀ b ∈ l, a.capacity < a.usedSpace → 0 < b.space →
    a.availableSpace < b.availableSpace ∨
      k ≤ l.countP fun c => a.availableSpace < c.availableSpace

theorem OverfullLast.space_le (h : OverfullLast l k) {sort : StdSort before}
    (ha : a ∈ (sort.sort l).take k) (hb : b ∈ l) (hab : b.availableSpace ≤ a.availableSpace) :
    b.space ≤ a.space := by
  by_cases hover : a.capacity < a.usedSpace
  · by_contra hspace
    have hmem : a ∈ l := (sort.perm l).mem_iff.1 (List.mem_of_mem_take ha)
    rcases h a hmem b hb hover (by omega) with hlt | hk
    · exact absurd hab (UInt64.not_le.2 hlt)
    · exact absurd (sort.countP_lt_of_mem_take ha) (not_lt.2 hk)
  · calc b.space ≤ b.availableSpace.toNat := DataNode.space_le
      _ ≤ a.availableSpace.toNat := UInt64.le_iff_toNat_le.1 hab
      _ = a.space := (space_eq hover).symm

theorem OverfullLast.takesRoomiest (h : OverfullLast l k) (sort : StdSort before) :
    TakesRoomiest sort l k := by
  have hsorted := sort.sorted l
  have hmem : ∀ {b}, b ∈ sort.sort l → b ∈ l := (sort.perm l).mem_iff.1
  rw [← List.take_append_drop k (sort.sort l), List.pairwise_append] at hsorted
  constructor
  · refine hsorted.1.imp_of_mem fun ha hb hab => ?_
    exact h.space_le ha (hmem (List.mem_of_mem_take hb)) (before_eq_false.1 hab)
  · intro b hb hnot a ha
    have hdrop : b ∈ (sort.sort l).drop k := by
      have hsort := (sort.perm l).mem_iff.2 hb
      rw [← List.take_append_drop k (sort.sort l), List.mem_append] at hsort
      exact hsort.resolve_left hnot
    exact h.space_le ha hb (before_eq_false.1 (hsorted.2.2 a ha b hdrop))

/-- The rank of the nodes by the space the comparator sees, where `x` is in front
    of those that are equivalent to it. -/
def rank (x a : DataNode) : ℕ := 2 * a.availableSpace.toNat + if a = x then 1 else 0

/-- Sorting with the ties broken in favour of `x`. -/
def sortFirst (x : DataNode) : StdSort before :=
  .byRank (rank x) fun a b hab => by
    have hlt := UInt64.lt_iff_toNat_lt.1 (of_decide_eq_true hab)
    rw [rank, rank]
    split <;> split <;> omega

theorem rank_le_rank (hb : b ≠ a) : rank a a ≤ rank a b ↔ a.availableSpace < b.availableSpace := by
  rw [rank, rank, if_pos rfl, if_neg hb, UInt64.lt_iff_toNat_lt]
  omega

/-- A node is selected if less than `k` nodes are in front of it. -/
theorem mem_take_sortFirst (hl : l.Nodup) (ha : a ∈ l)
    (hk : (l.countP fun c => a.availableSpace < c.availableSpace) < k) :
    a ∈ ((sortFirst a).sort l).take k := by
  have hperm := List.perm_cons_erase ha
  refine StdSort.mem_take_byRank ha ?_
  rw [hperm.countP_eq, List.countP_cons] at hk ⊢
  have hothers : ((l.erase a).countP fun c => rank a a ≤ rank a c) =
      (l.erase a).countP fun c => a.availableSpace < c.availableSpace := by
    refine List.countP_congr fun c hc => ?_
    simp only [decide_eq_true_eq]
    exact rank_le_rank (hl.mem_erase_iff.1 hc).1
  rw [hothers]
  split <;> omega

/-- If the nodes selected are the roomiest with every sort, an overfull node is
    behind those with space left, or is not selected. -/
theorem overfullLast_of_takesRoomiest (hl : l.Nodup)
    (h : ∀ sort, TakesRoomiest sort l k) : OverfullLast l k := by
  intro a ha b hb hover hspace
  refine or_iff_not_imp_left.2 fun hle => not_lt.1 fun hk => ?_
  have hne : b ≠ a := by
    rintro rfl
    rw [space_eq_zero hover] at hspace
    exact lt_irrefl 0 hspace
  have hmem := mem_take_sortFirst hl ha hk
  have hroomiest := h (sortFirst a)
  have hspace' : b.space ≤ a.space := by
    by_cases hmem' : b ∈ ((sortFirst a).sort l).take k
    · -- of the two nodes, both selected, this one is in front
      have hrank : (((sortFirst a).sort l).take k).Pairwise fun c d => rank a d ≤ rank a c :=
        StdSort.pairwise_byRank.sublist (List.take_sublist _ _)
      have hsorted := hroomiest.sorted
      obtain ⟨pre, post, hsplit⟩ := List.append_of_mem hmem
      rw [hsplit, List.pairwise_append, List.pairwise_cons] at hrank hsorted
      rw [hsplit, List.mem_append, List.mem_cons] at hmem'
      rcases hmem' with hpre | rfl | hpost
      · have hlt := (rank_le_rank hne).1 (hrank.2.2 b hpre a List.mem_cons_self)
        exact absurd hlt hle
      · exact le_rfl
      · exact hsorted.2.1.1 b hpost
    · exact hroomiest.roomiest b hb hmem' a hmem
  rw [space_eq_zero hover] at hspace'
  omega

end DataNode

/-! ## Which nodes are alive -/

inductive NodeCall
  | registerDataNode (node : DataNode)
  | updateHeartbeat (nodeName : Bytes) (now : TimePoint)
  deriving DecidableEq

/-- The node `reg` was registered, and its name not again in the calls `since`. -/
structure LastRegistered (calls : List NodeCall) (reg : DataNode) (since : List NodeCall) :
    Prop where
  eq_append : ∃ calls', calls = calls' ++ .registerDataNode reg :: since
  notMem : ∀ node, .registerDataNode node ∈ since → node.nodeName ≠ reg.nodeName

/-- The node was registered alive, or has been heard from since. -/
def AliveNode (calls : List NodeCall) (reg : DataNode) : Prop :=
  ∃ since, LastRegistered calls reg since ∧
    (reg.isAlive ∨ ∃ now, .updateHeartbeat reg.nodeName now ∈ since)

variable {calls since since' : List NodeCall} {call : NodeCall} {reg reg' node : DataNode}
  {n : NameNode} {name : Bytes} {factor : ℕ}

theorem LastRegistered.of_eq_append {calls' : List NodeCall} (h : LastRegistered calls reg since)
    (hname : reg'.nodeName = reg.nodeName)
    (heq : .registerDataNode reg :: since = calls' ++ .registerDataNode reg' :: since') :
    reg = reg' ∧ since = since' := by
  cases calls' with
  | nil =>
    obtain ⟨hreg, hsince⟩ := List.cons.inj heq
    exact ⟨NodeCall.registerDataNode.inj hreg, hsince⟩
  | cons call calls' =>
    -- a later registration
    obtain ⟨-, rfl⟩ := List.cons.inj heq
    exact absurd hname (h.notMem reg' (by simp))

/-- The last registration under a name is only one. -/
theorem LastRegistered.unique (h : LastRegistered calls reg since)
    (h' : LastRegistered calls reg' since') (hname : reg.nodeName = reg'.nodeName) :
    reg = reg' ∧ since = since' := by
  obtain ⟨calls₁, rfl⟩ := h.eq_append
  obtain ⟨calls₂, heq⟩ := h'.eq_append
  rcases List.append_eq_append_iff.1 heq with ⟨_, -, heq'⟩ | ⟨_, -, heq'⟩
  · exact h.of_eq_append hname.symm heq'
  · obtain ⟨hreg, hsince⟩ := h'.of_eq_append hname heq'
    exact ⟨hreg.symm, hsince.symm⟩

namespace NodeCall

def apply (n : NameNode) : NodeCall → NameNode
  | registerDataNode node => n.registerDataNode node
  | updateHeartbeat nodeName now => n.updateHeartbeat nodeName now

/-- What a call makes of a registered node that it does not register again. -/
def hear (node : DataNode) : NodeCall → DataNode
  | registerDataNode _ => node
  | updateHeartbeat nodeName now =>
    if nodeName = node.nodeName then { node with lastHeartbeat := now, isAlive := true } else node

@[simp] theorem nodeName_hear : (hear node call).nodeName = node.nodeName := by
  cases call with
  | registerDataNode _ => rfl
  | updateHeartbeat nodeName now =>
    rw [hear]
    split <;> rfl

theorem isAlive_hear : (hear node call).isAlive ↔
    node.isAlive ∨ ∃ now, .updateHeartbeat node.nodeName now = call := by
  cases call with
  | registerDataNode _ => simp [hear]
  | updateHeartbeat nodeName now =>
    rw [hear]
    split
    next h => simp [h]
    next h => simp [Ne.symm h]

/-- Only liveness and time are told by the heartbeats. -/
theorem hear_eq (node : DataNode) (call : NodeCall) : ∃ alive time, hear node call =
    { node with isAlive := alive, lastHeartbeat := time } := by
  cases call with
  | registerDataNode _ => exact ⟨_, _, rfl⟩
  | updateHeartbeat nodeName now =>
    rw [hear]
    split
    next => exact ⟨_, _, rfl⟩
    next => exact ⟨_, _, rfl⟩

theorem isAlive_foldl_hear : (since.foldl hear node).isAlive ↔
    node.isAlive ∨ ∃ now, .updateHeartbeat node.nodeName now ∈ since := by
  induction since generalizing node with
  | nil => simp
  | cons call since ih =>
    simp only [List.foldl_cons, ih, isAlive_hear, nodeName_hear, List.mem_cons, exists_or, or_assoc]

theorem foldl_hear_eq (since : List NodeCall) (node : DataNode) :
    ∃ alive time, since.foldl hear node =
      { node with isAlive := alive, lastHeartbeat := time } := by
  induction since generalizing node with
  | nil => exact ⟨_, _, rfl⟩
  | cons call since ih =>
    obtain ⟨_, _, hcall⟩ := hear_eq node call
    obtain ⟨_, _, hsince⟩ := ih (hear node call)
    exact ⟨_, _, hsince.trans (by rw [hcall])⟩

theorem replicationFactor_apply : (apply n call).replicationFactor = n.replicationFactor := by
  cases call with
  | registerDataNode _ => rfl
  | updateHeartbeat nodeName now =>
    rw [apply, NameNode.updateHeartbeat]
    split <;> rfl

/-- A registered node after a call that does not register it again. -/
theorem lookup_apply (h : n.dataNodes.lookup node.nodeName = some node)
    (hcall : ∀ reg, call = .registerDataNode reg → reg.nodeName ≠ node.nodeName) :
    (apply n call).dataNodes.lookup node.nodeName = some (hear node call) := by
  cases call with
  | registerDataNode reg => exact (Finmap.lookup_insert_of_ne _ (hcall reg rfl).symm).trans h
  | updateHeartbeat nodeName now =>
    rw [apply, NameNode.updateHeartbeat, hear]
    by_cases hname : nodeName = node.nodeName
    · subst hname
      rw [h, if_pos rfl]
      exact Finmap.lookup_insert _
    · rw [if_neg hname]
      split
      next => exact h
      next => exact (Finmap.lookup_insert_of_ne _ (Ne.symm hname)).trans h

/-- A call leaves no other nodes than before, and the one it registers. -/
theorem mem_of_mem_apply (h : name ∈ (apply n call).dataNodes) :
    name ∈ n.dataNodes ∨ ∃ reg, call = .registerDataNode reg ∧ reg.nodeName = name := by
  cases call with
  | registerDataNode reg =>
    rcases Finmap.mem_insert.1 h with rfl | hmem
    · exact .inr ⟨reg, rfl, rfl⟩
    · exact .inl hmem
  | updateHeartbeat nodeName now =>
    rw [apply, NameNode.updateHeartbeat] at h
    split at h
    next => exact .inl h
    next hnode =>
      rcases Finmap.mem_insert.1 h with rfl | hmem
      · exact .inl (Finmap.mem_of_lookup_eq_some hnode)
      · exact .inl hmem

end NodeCall

/-! ## The name node after the calls -/

namespace NameNode

/-- The name node after the calls. -/
def after (factor : ℕ) (calls : List NodeCall) : NameNode :=
  calls.foldl NodeCall.apply (create factor)

theorem after_concat :
    after factor (calls ++ [call]) = NodeCall.apply (after factor calls) call := by
  rw [after, List.foldl_append]
  rfl

@[simp] theorem replicationFactor_after : (after factor calls).replicationFactor = factor := by
  induction calls using List.reverseRecOn with
  | nil => rfl
  | append_singleton calls call ih => rw [after_concat, NodeCall.replicationFactor_apply, ih]

/-- A registered node after calls that do not register it again. -/
theorem lookup_foldl_apply (h : n.dataNodes.lookup node.nodeName = some node)
    (hsince : ∀ reg, .registerDataNode reg ∈ since → reg.nodeName ≠ node.nodeName) :
    (since.foldl NodeCall.apply n).dataNodes.lookup node.nodeName =
      some (since.foldl NodeCall.hear node) := by
  induction since generalizing n node with
  | nil => exact h
  | cons call since ih =>
    have hcall := NodeCall.lookup_apply h fun reg hreg => hsince reg (hreg ▸ List.mem_cons_self)
    have hname : (NodeCall.hear node call).nodeName = node.nodeName := NodeCall.nodeName_hear
    rw [← hname] at hcall hsince ⊢
    exact ih hcall fun reg hreg => hsince reg (List.mem_cons_of_mem _ hreg)

/-- What was last registered is there, with what has been heard from it. -/
theorem lookup_after (h : LastRegistered calls reg since) :
    (after factor calls).dataNodes.lookup reg.nodeName = some (since.foldl NodeCall.hear reg) := by
  obtain ⟨calls', rfl⟩ := h.eq_append
  rw [after, List.foldl_append, List.foldl_cons]
  exact lookup_foldl_apply (Finmap.lookup_insert _) h.notMem

/-- What is there was registered. -/
theorem exists_lastRegistered (h : name ∈ (after factor calls).dataNodes) :
    ∃ reg since, LastRegistered calls reg since ∧ reg.nodeName = name := by
  induction calls using List.reverseRecOn with
  | nil => exact absurd h Finmap.notMem_empty
  | append_singleton calls call ih =>
    by_cases hcall : ∃ reg, call = .registerDataNode reg ∧ reg.nodeName = name
    · obtain ⟨reg, rfl, hname⟩ := hcall
      exact ⟨reg, [], ⟨⟨calls, rfl⟩, by simp⟩, hname⟩
    · rw [after_concat] at h
      obtain ⟨reg, since, hreg, hname⟩ := ih ((NodeCall.mem_of_mem_apply h).resolve_right hcall)
      obtain ⟨calls', rfl⟩ := hreg.eq_append
      refine ⟨reg, since ++ [call], ⟨⟨calls', by simp⟩, fun node hnode => ?_⟩, hname⟩
      rcases List.mem_append.1 hnode with hmem | hmem
      · exact hreg.notMem node hmem
      · rintro hname'
        exact hcall ⟨node, (List.mem_singleton.1 hmem).symm, hname'.trans hname⟩

/-! ## The selection -/

/-- The alive nodes, as they are found in the map. -/
def aliveNodes (n : NameNode) (order : IterationOrder Bytes DataNode) : List DataNode :=
  ((order.entries n.dataNodes).map Sigma.snd).filter (·.isAlive)

/-- How many nodes are asked for. -/
def writeCount (factor count : ℕ) : ℕ := if count = 0 then factor else count

variable {order : IterationOrder Bytes DataNode} {sort : StdSort DataNode.before} {count : ℕ}

theorem selectDataNodesForWrite_eq : n.selectDataNodesForWrite order sort count =
    (sort.sort (n.aliveNodes order)).take (writeCount n.replicationFactor count) := by
  rw [selectDataNodesForWrite, ← aliveNodes, ← writeCount]
  split
  next => rfl
  next hle => rw [List.take_of_length_le (not_lt.1 hle)]

theorem mem_aliveNodes : node ∈ n.aliveNodes order ↔
    ∃ name, n.dataNodes.lookup name = some node ∧ node.isAlive := by
  simp only [aliveNodes, List.mem_filter, List.mem_map]
  constructor
  · rintro ⟨⟨⟨name, _⟩, hmem, rfl⟩, halive⟩
    exact ⟨name, order.mem_entries.1 hmem, halive⟩
  · rintro ⟨name, hnode, halive⟩
    exact ⟨⟨⟨name, node⟩, order.mem_entries.2 hnode, rfl⟩, halive⟩

/-- An alive node of the map was registered, and is alive. -/
theorem exists_aliveNode (h : node ∈ (after factor calls).aliveNodes order) :
    ∃ reg time, AliveNode calls reg ∧
      node = { reg with isAlive := true, lastHeartbeat := time } := by
  obtain ⟨name, hnode, halive⟩ := mem_aliveNodes.1 h
  obtain ⟨reg, since, hreg, rfl⟩ := exists_lastRegistered (Finmap.mem_of_lookup_eq_some hnode)
  rw [lookup_after hreg, Option.some.injEq] at hnode
  subst hnode
  obtain ⟨alive, time, heq⟩ := NodeCall.foldl_hear_eq since reg
  refine ⟨reg, time, ⟨since, hreg, NodeCall.isAlive_foldl_hear.1 halive⟩, ?_⟩
  rw [heq] at halive ⊢
  rw [show alive = true from halive]

/-- A node that was registered and is alive is an alive node of the map. -/
theorem exists_mem_aliveNodes (h : AliveNode calls reg) :
    ∃ time, { reg with isAlive := true, lastHeartbeat := time } ∈
      (after factor calls).aliveNodes order := by
  obtain ⟨since, hreg, halive⟩ := h
  obtain ⟨alive, time, heq⟩ := NodeCall.foldl_hear_eq since reg
  rw [← NodeCall.isAlive_foldl_hear, heq] at halive
  rw [show alive = true from halive] at heq
  exact ⟨time, mem_aliveNodes.2 ⟨reg.nodeName, (lookup_after hreg).trans (congrArg some heq), rfl⟩⟩

theorem nodeName_of_lookup (h : (after factor calls).dataNodes.lookup name = some node) :
    node.nodeName = name := by
  obtain ⟨reg, since, hreg, rfl⟩ := exists_lastRegistered (Finmap.mem_of_lookup_eq_some h)
  obtain ⟨_, _, heq⟩ := NodeCall.foldl_hear_eq since reg
  rw [lookup_after hreg, Option.some.injEq, heq] at h
  exact h ▸ rfl

/-- The alive nodes have different names. -/
theorem nodup_names : (((after factor calls).aliveNodes order).map DataNode.nodeName).Nodup := by
  have hkeys : ((order.entries (after factor calls).dataNodes).map Sigma.snd).map
      DataNode.nodeName = (order.entries (after factor calls).dataNodes).keys := by
    rw [List.map_map, List.keys]
    exact List.map_congr_left fun e he => nodeName_of_lookup (order.mem_entries.1 he)
  refine List.Nodup.sublist (List.Sublist.map _ List.filter_sublist) ?_
  rw [hkeys]
  exact order.nodupKeys_entries _

/-- As many alive nodes are found in the map as there are. -/
theorem countP_aliveNodes {p : DataNode → Prop} [DecidablePred p]
    (hp : ∀ (node : DataNode) alive time,
      p { node with isAlive := alive, lastHeartbeat := time } ↔ p node) :
    ((after factor calls).aliveNodes order).countP p =
      {reg | AliveNode calls reg ∧ p reg}.ncard := by
  -- both are the number of their names
  have hinj : Set.InjOn DataNode.nodeName {reg | AliveNode calls reg ∧ p reg} := by
    rintro reg ⟨⟨_, hreg, -⟩, -⟩ reg' ⟨⟨_, hreg', -⟩, -⟩ hname
    exact (hreg.unique hreg' hname).1
  let names := (((after factor calls).aliveNodes order).filter p).map DataNode.nodeName
  have hnames : DataNode.nodeName '' {reg | AliveNode calls reg ∧ p reg} = names.toFinset := by
    ext name
    simp only [names, Set.mem_image, Set.mem_ofPred_eq, List.coe_toFinset, List.mem_map,
      List.mem_filter, decide_eq_true_eq]
    constructor
    · rintro ⟨reg, ⟨halive, hreg⟩, rfl⟩
      obtain ⟨time, hmem⟩ : ∃ time, _ ∈ (after factor calls).aliveNodes order :=
        exists_mem_aliveNodes halive
      exact ⟨_, ⟨hmem, (hp reg _ _).2 hreg⟩, rfl⟩
    · rintro ⟨node, ⟨hmem, hnode⟩, rfl⟩
      obtain ⟨reg, time, halive, rfl⟩ := exists_aliveNode hmem
      exact ⟨reg, ⟨halive, (hp reg _ _).1 hnode⟩, rfl⟩
  rw [← hinj.ncard_image, hnames, Set.ncard_coe_finset, List.toFinset_card_of_nodup,
    List.length_map, List.countP_eq_length_filter]
  exact nodup_names.sublist (List.filter_sublist.map _)

/-- The nodes selected after the calls are `k`, or all that are alive; they are
    different ones, each registered and alive, sorted by the space left, and no
    other alive node has more left than one of them. -/
structure SelectsRoomiest (calls : List NodeCall) (k : ℕ) (selected : List DataNode) : Prop where
  length : selected.length = min k {reg | AliveNode calls reg}.ncard
  distinct : (selected.map DataNode.nodeName).Nodup
  alive : ∀ node ∈ selected, ∃ reg time, AliveNode calls reg ∧
    node = { reg with isAlive := true, lastHeartbeat := time }
  sorted : selected.Pairwise fun a b => b.space ≤ a.space
  roomiest : ∀ reg, AliveNode calls reg → reg.nodeName ∉ selected.map DataNode.nodeName →
    ∀ node ∈ selected, reg.space ≤ node.space

section

variable (factor calls order)

/-- The overfull nodes are last in the list that is sorted exactly if they are last
    of the alive nodes. -/
theorem overfullLast_iff (k : ℕ) :
    DataNode.OverfullLast ((after factor calls).aliveNodes order) k ↔
      ∀ a b, AliveNode calls a → AliveNode calls b → a.capacity < a.usedSpace → 0 < b.space →
        a.availableSpace < b.availableSpace ∨
          k ≤ {c | AliveNode calls c ∧ a.availableSpace < c.availableSpace}.ncard := by
  have hcount : ∀ a : DataNode, (((after factor calls).aliveNodes order).countP
      fun c => a.availableSpace < c.availableSpace) =
        {c | AliveNode calls c ∧ a.availableSpace < c.availableSpace}.ncard :=
    fun a => countP_aliveNodes fun _ _ _ => Iff.rfl
  constructor
  · intro h a b ha hb hover hspace
    obtain ⟨_, ha'⟩ : ∃ time, _ ∈ (after factor calls).aliveNodes order := exists_mem_aliveNodes ha
    obtain ⟨_, hb'⟩ : ∃ time, _ ∈ (after factor calls).aliveNodes order := exists_mem_aliveNodes hb
    have hlast := h _ ha' _ hb' hover hspace
    rw [← hcount]
    exact hlast
  · intro h a ha b hb hover hspace
    obtain ⟨a, _, ha', rfl⟩ := exists_aliveNode ha
    obtain ⟨b, _, hb', rfl⟩ := exists_aliveNode hb
    rw [hcount]
    exact h a b ha' hb' hover hspace

/-- All but the comparison by the space left holds of the nodes taken. -/
theorem selectsRoomiest_take_iff (sort : StdSort DataNode.before) (k : ℕ) :
    SelectsRoomiest calls k ((sort.sort ((after factor calls).aliveNodes order)).take k) ↔
      DataNode.TakesRoomiest sort ((after factor calls).aliveNodes order) k := by
  have hperm := sort.perm ((after factor calls).aliveNodes order)
  have hnames : ((sort.sort ((after factor calls).aliveNodes order)).map
      DataNode.nodeName).Nodup := (hperm.map _).nodup_iff.2 nodup_names
  have hcount : ((after factor calls).aliveNodes order).length =
      {reg | AliveNode calls reg}.ncard := by
    have h : ((after factor calls).aliveNodes order).countP (fun _ => True) =
        {reg | AliveNode calls reg ∧ True}.ncard := countP_aliveNodes fun _ _ _ => Iff.rfl
    simpa using h
  constructor
  · intro h
    refine ⟨h.sorted, fun b hb hnot a ha => ?_⟩
    obtain ⟨reg, time, hreg, rfl⟩ := exists_aliveNode hb
    refine h.roomiest reg hreg (fun hname => ?_) a ha
    -- a node with its name would be the same node
    obtain ⟨c, hc, hname⟩ := List.mem_map.1 hname
    have hsame := List.inj_on_of_nodup_map hnames (List.mem_of_mem_take hc) (hperm.mem_iff.2 hb)
      hname
    exact hnot (hsame ▸ hc)
  · intro h
    refine ⟨?_, ?_, ?_, h.sorted, ?_⟩
    · rw [List.length_take, hperm.length_eq, hcount]
    · exact hnames.sublist ((List.take_sublist _ _).map _)
    · exact fun node hnode => exists_aliveNode (hperm.mem_iff.1 (List.mem_of_mem_take hnode))
    · intro reg hreg hname node hnode
      obtain ⟨time, hmem⟩ : ∃ time, _ ∈ (after factor calls).aliveNodes order :=
        exists_mem_aliveNodes hreg
      refine h.roomiest _ hmem (fun htake => ?_) node hnode
      exact hname (List.mem_map.2 ⟨_, htake, rfl⟩)

end

/-- If the nodes selected are the roomiest with every sort, the overfull nodes are
    last. -/
theorem overfullLast_of_selectsRoomiest
    (h : ∀ order sort, SelectsRoomiest calls (writeCount factor count)
      ((after factor calls).selectDataNodesForWrite order sort count)) :
    ∀ a b, AliveNode calls a → AliveNode calls b → a.capacity < a.usedSpace → 0 < b.space →
      a.availableSpace < b.availableSpace ∨ writeCount factor count ≤
        {c | AliveNode calls c ∧ a.availableSpace < c.availableSpace}.ncard := by
  simp only [selectDataNodesForWrite_eq, replicationFactor_after, selectsRoomiest_take_iff] at h
  rw [← overfullLast_iff calls factor default]
  exact DataNode.overfullLast_of_takesRoomiest (nodup_names.of_map _) (h default)

/-- The nodes selected are the roomiest, whatever the order of iteration and the
    sort, exactly if every node that uses more than its capacity compares less
    than the nodes with space left, or enough nodes compare greater than it. -/
theorem selectsRoomiest_iff (factor count : ℕ) (calls : List NodeCall) :
    (∀ order sort, SelectsRoomiest calls (writeCount factor count)
        ((after factor calls).selectDataNodesForWrite order sort count)) ↔
      ∀ a b, AliveNode calls a → AliveNode calls b → a.capacity < a.usedSpace → 0 < b.space →
        a.availableSpace < b.availableSpace ∨ writeCount factor count ≤
          {c | AliveNode calls c ∧ a.availableSpace < c.availableSpace}.ncard := by
  refine ⟨overfullLast_of_selectsRoomiest, fun h order sort => ?_⟩
  rw [selectDataNodesForWrite_eq, replicationFactor_after, selectsRoomiest_take_iff]
  exact ((overfullLast_iff calls factor order _).2 h).takesRoomiest sort

/-- A node that uses one byte more than it has is selected before one with ten
    bytes left. -/
theorem not_selectsRoomiest_overfull :
    let node (name : String) (capacity usedSpace : UInt64) : DataNode :=
      ⟨ascii name, ascii "host", 9001, capacity, usedSpace, true, 0⟩
    let calls : List NodeCall :=
      [.registerDataNode (node "a" 0 1), .registerDataNode (node "b" 10 0)]
    ¬∀ order sort, SelectsRoomiest calls (writeCount 1 1)
      ((after 1 calls).selectDataNodesForWrite order sort 1) := by
  intro node calls h
  have ha : AliveNode calls (node "a" 0 1) :=
    ⟨[.registerDataNode (node "b" 10 0)], ⟨⟨[], rfl⟩, by simp [node]; decide⟩, .inl rfl⟩
  have hb : AliveNode calls (node "b" 10 0) :=
    ⟨[], ⟨⟨[.registerDataNode (node "a" 0 1)], rfl⟩, by simp⟩, .inl rfl⟩
  rcases overfullLast_of_selectsRoomiest h _ _ ha hb (by decide) (by decide) with hlt | hcard
  · exact absurd hlt (by decide)
  · -- nothing compares greater than all bits set
    have hnone : {c | AliveNode calls c ∧
        (node "a" 0 1).availableSpace < c.availableSpace} = ∅ := by
      refine Set.eq_empty_of_forall_notMem fun c hc => ?_
      have hlt := UInt64.lt_iff_toNat_lt.1 hc.2
      have hall : (node "a" 0 1).availableSpace.toNat = 2 ^ 64 - 1 := by decide
      have := c.availableSpace.toNat_lt
      omega
    rw [hnone, Set.ncard_empty] at hcard
    exact absurd hcard (by decide)

end NameNode

end Dss.Dfs
