import Skaidb.Cluster.Ring

namespace Skaidb.Cluster.Ring

open Skaidb.Base Skaidb.Storage List

def removeNode (r : Ring) (node : NodeId) : Ring :=
  if node ∈ r.nodes then
    { r with nodes := r.nodes.erase node, vnodes := r.vnodes.filter (fun e => e.2 ≠ node) }
  else r

inductive Call where
  | add (node : NodeId)
  | remove (node : NodeId)

def call (r : Ring) : Call → Ring
  | .add node => r.addNode node
  | .remove node => r.removeNode node

def built (vnodesPerNode : Nat) (calls : List Call) : Ring := calls.foldl call (new vnodesPerNode)

structure Owned (r : Ring) : Prop where
  nodup : r.nodes.Nodup
  owner : ∀ token node, r.vnodes.get? token = some node → node ∈ r.nodes

variable {r : Ring}

theorem Owned.call (h : r.Owned) (c : Call) : (r.call c).Owned := by
  cases c with
  | add node =>
    show (r.addNode node).Owned
    unfold addNode
    split_ifs with hmem
    · exact h
    · refine ⟨nodup_cons.mpr ⟨hmem, h.nodup⟩, fun token owner hget => ?_⟩
      rw [get?_insertTokens] at hget
      split_ifs at hget
      · cases hget
        exact mem_cons_self
      · exact mem_cons_of_mem _ (h.owner token owner hget)
  | remove node =>
    show (r.removeNode node).Owned
    unfold removeNode
    split_ifs with hmem
    · refine ⟨h.nodup.erase _, fun token owner hget => ?_⟩
      obtain ⟨hget, hne⟩ := Option.filter_eq_some_iff.mp (r.vnodes.get?_filter.symm.trans hget)
      exact h.nodup.mem_erase_iff.mpr ⟨by simpa using hne, h.owner token owner hget⟩
    · exact h

theorem owned_built (vnodesPerNode : Nat) (calls : List Call) : (built vnodesPerNode calls).Owned := by
  have hrun : ∀ r : Ring, r.Owned → (calls.foldl Ring.call r).Owned := by
    induction calls with
    | nil => exact fun r h => h
    | cons c calls ih => exact fun r h => ih _ (h.call c)
  exact hrun _ ⟨nodup_nil, by simp [new]⟩

structure Without (node : NodeId) (more less : Ring) : Prop where
  nodes : more.nodes.length = less.nodes.length + 1
  vnodes : less.vnodes = more.vnodes.filter (fun e => e.2 ≠ node)

theorem without_addNode (h : r.Owned) (hnew : node ∉ r.nodes)
    (hfresh : ∀ i < r.vnodesPerNode, r.vnodes.get? (hashToken node i) = none) :
    Without node (r.addNode node) r := by
  unfold addNode
  rw [if_neg hnew]
  refine ⟨rfl, OrdMap.ext_entries (OrdMap.eq_of_lookup_eq (OrdMap.sorted _) (OrdMap.sorted _) fun token => ?_)⟩
  show r.vnodes.get? token = OrdMap.get? _ token
  rw [OrdMap.get?_filter, get?_insertTokens]
  split_ifs with htoken
  · obtain ⟨i, hi, rfl⟩ := htoken
    rw [hfresh i (mem_range.mp hi)]
    simp [Option.filter]
  · cases hget : r.vnodes.get? token with
    | none => rfl
    | some owner =>
      have hne : owner ≠ node := fun heq => hnew (heq ▸ h.owner token owner hget)
      simp [Option.filter, hne]

theorem without_removeNode (hmem : node ∈ r.nodes) : Without node r (r.removeNode node) := by
  unfold removeNode
  rw [if_pos hmem]
  exact ⟨(length_erase_add_one hmem).symm, rfl⟩

theorem Owned.length_order_le (h : r.Owned) (key : Bytes) : (r.order key).length ≤ r.nodes.length := by
  refine (subperm_of_subset (r.nodup_order key) fun n hn => ?_).length_le
  obtain ⟨token, hget⟩ := mem_walk.mp (mem_distinct.mp hn)
  exact h.owner token n hget

-- With the node come no other replicas, and at most one of the others goes.
def Shifts (node : NodeId) (more less : Ring) (key : Bytes) (rf : Nat) : Prop :=
  more.replicasFor key rf ⊆ node :: less.replicasFor key rf ∧
    ((less.replicasFor key rf).filter (fun n => n ∉ more.replicasFor key rf)).length ≤ 1

theorem Without.shifts {more less : Ring} (h : Without node more less) (hless : less.Owned) (key : Bytes) (rf : Nat) :
    Shifts node more less key rf := by
  -- a ring without more owners than nodes can be asked for one replica more
  have htake : less.replicasFor key rf = (less.order key).take (min rf more.nodes.length) := by
    have hlen := hless.length_order_le key
    rw [replicasFor_eq, h.nodes]
    rcases Nat.lt_or_ge less.nodes.length rf with hlt | hle
    · rw [take_of_length_le (by omega), take_of_length_le (by omega)]
    · rw [Nat.min_eq_left hle, Nat.min_eq_left (by omega)]
  have horder : less.order key = (more.order key).filter (fun n => n ≠ node) := order_filter h.vnodes key
  unfold Shifts
  rw [htake, replicasFor_eq, horder, take_filter_ne (more.nodup_order key)]
  generalize (more.order key).take (min rf more.nodes.length) = reps
  split_ifs with hmem
  · refine ⟨fun n hn => ?_, ?_⟩
    · by_cases hnode : n = node
      · simp [hnode]
      · simp [hn, hnode]
    · rw [filter_append, filter_eq_nil_iff.mpr (by simp +contextual), nil_append]
      exact (length_filter_le _ _).trans (by rw [length_take]; omega)
  · rw [filter_eq_nil_iff.mpr (by simp)]
    exact ⟨subset_cons_self _ _, by simp⟩

theorem replicasFor_perm {vnodesPerNode : Nat} {ids ids' : List NodeId} (hperm : ids.Perm ids')
    (hapart : TokensApart vnodesPerNode ids) (key : Bytes) (rf : Nat) :
    (ofMembers vnodesPerNode ids).replicasFor key rf = (ofMembers vnodesPerNode ids').replicasFor key rf := by
  have hapart' := hapart.subset hperm.symm.subset
  obtain ⟨hspread, hmem⟩ := spread_ofMembers hapart
  obtain ⟨hspread', hmem'⟩ := spread_ofMembers hapart'
  have horder := hspread.order_filter hspread' (fun _ => true)
    (fun n => by simp [hmem, hmem', hperm.mem_iff]) key
  rw [replicasFor_ofMembers hapart, replicasFor_ofMembers hapart', horder, filter_true]

theorem replicas_shift (vnodesPerNode : Nat) (calls : List Call) (node : NodeId) (key : Bytes) (rf : Nat) :
    (node ∉ (built vnodesPerNode calls).nodes → (∀ i < (built vnodesPerNode calls).vnodesPerNode,
        (built vnodesPerNode calls).vnodes.get? (hashToken node i) = none) →
      Shifts node ((built vnodesPerNode calls).addNode node) (built vnodesPerNode calls) key rf) ∧
    (node ∈ (built vnodesPerNode calls).nodes →
      Shifts node (built vnodesPerNode calls) ((built vnodesPerNode calls).removeNode node) key rf) ∧
    ∀ ids ids', ids.Perm ids' → TokensApart vnodesPerNode ids →
      (ofMembers vnodesPerNode ids).replicasFor key rf = (ofMembers vnodesPerNode ids').replicasFor key rf := by
  have howned := owned_built vnodesPerNode calls
  refine ⟨fun hnew hfresh => ?_, fun hmem => ?_, fun ids ids' hperm hapart => replicasFor_perm hperm hapart key rf⟩
  · exact (without_addNode howned hnew hfresh).shifts howned key rf
  · exact (without_removeNode hmem).shifts (howned.call (.remove node)) key rf

theorem replicas_shift_three_nodes : let r := built 2 [.add ⟨"n1"⟩, .add ⟨"n2"⟩]
    Shifts ⟨"n3"⟩ (r.addNode ⟨"n3"⟩) r [7] 2 ∧ Shifts ⟨"n1"⟩ r (r.removeNode ⟨"n1"⟩) [7] 2 ∧
      (ofMembers 2 [⟨"n1"⟩, ⟨"n2"⟩, ⟨"n3"⟩]).replicasFor [7] 2 =
        (ofMembers 2 [⟨"n3"⟩, ⟨"n1"⟩, ⟨"n2"⟩]).replicasFor [7] 2 :=
  ⟨(replicas_shift 2 [.add ⟨"n1"⟩, .add ⟨"n2"⟩] ⟨"n3"⟩ [7] 2).1 (by decide) (by decide),
    (replicas_shift 2 [.add ⟨"n1"⟩, .add ⟨"n2"⟩] ⟨"n1"⟩ [7] 2).2.1 (by decide),
    (replicas_shift 2 [] ⟨"n1"⟩ [7] 2).2.2 _ _ (by decide) (by decide)⟩

-- However members come and go, replicas are distinct members, and a larger factor adds more.
theorem replicasFor_built (vnodesPerNode : Nat) (calls : List Call) (key : Bytes) (rf : Nat) :
    let r := built vnodesPerNode calls
    (r.replicasFor key rf).Nodup ∧ (r.replicasFor key rf).length ≤ rf ∧ r.replicasFor key rf ⊆ r.nodes ∧
      ∀ more, rf ≤ more → r.replicasFor key rf <+: r.replicasFor key more := by
  simp only [replicasFor_eq, length_take]
  refine ⟨(nodup_order _ _).sublist (take_sublist _ _), by omega, fun n hn => ?_,
    fun _ _ => take_prefix_take_left (by omega)⟩
  obtain ⟨token, hget⟩ := mem_walk.mp (mem_distinct.mp (mem_of_mem_take hn))
  exact (owned_built vnodesPerNode calls).owner token n hget

end Skaidb.Cluster.Ring
