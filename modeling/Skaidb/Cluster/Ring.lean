import Skaidb.Base.Distinct
import Skaidb.Cluster.Coordinator

namespace Skaidb.Cluster

open Skaidb.Base Skaidb.Storage Skaidb.Types List OrdMap

def ringHash (bytes : Bytes) : UInt64 :=
  let h := bytes.foldl (fun h b => (h ^^^ b.toUInt64) * 0x100000001b3) 0xcbf29ce484222325
  let z := (h ^^^ (h >>> 30)) * 0xbf58476d1ce4e5b9
  let z := (z ^^^ (z >>> 27)) * 0x94d049bb133111eb
  z ^^^ (z >>> 31)

def hashToken (node : NodeId) (vnode : Nat) : UInt64 := ringHash (utf8 node.name ++ leBytes 4 vnode)

-- The nodes are a set; their order plays no part.
structure Ring where
  vnodes : OrdMap UInt64 NodeId
  nodes : List NodeId
  vnodesPerNode : Nat

namespace Ring

def new (vnodesPerNode : Nat) : Ring := ⟨OrdMap.empty, [], max vnodesPerNode 1⟩

variable (r : Ring)

-- A token that is taken goes to the node added last.
def addNode (node : NodeId) : Ring :=
  if node ∈ r.nodes then r
  else
    { r with
      nodes := node :: r.nodes
      vnodes := (List.range r.vnodesPerNode).foldl (fun m i => m.insert (hashToken node i) node) r.vnodes }

def ofMembers (vnodesPerNode : Nat) (ids : List NodeId) : Ring := ids.foldl addNode (new vnodesPerNode)

def walk (h : UInt64) : List NodeId :=
  (r.vnodes.entries.filter (fun e => h ≤ e.1) ++ r.vnodes.entries.filter (fun e => e.1 < h)).map Prod.snd

def replicasFor (key : Bytes) (rf : Nat) : List NodeId :=
  let want := min rf r.nodes.length
  if want = 0 then [] else collectDistinct want [] (r.walk (ringHash key))

def primaryFor (key : Bytes) : Option NodeId := (r.replicasFor key 1).head?

section Order

variable (r : Ring) (key : Bytes)

def order : List NodeId := distinct (r.walk (ringHash key))

theorem nodup_order : (r.order key).Nodup := nodup_distinct

theorem replicasFor_eq (rf : Nat) : r.replicasFor key rf = (r.order key).take (min rf r.nodes.length) := by
  unfold replicasFor
  simp only
  split_ifs with hzero
  · rw [hzero, take_zero]
  · rw [collectDistinct_eq (by simp; omega), nil_append]
    congr 1
    exact filter_eq_self.mpr (by simp)

theorem nodup_replicasFor : (r.replicasFor key rf).Nodup := by
  rw [replicasFor_eq]
  exact (r.nodup_order key).sublist (take_sublist _ _)

theorem replicasFor_mono (h : rf ≤ rf') : r.replicasFor key rf ⊆ r.replicasFor key rf' := by
  rw [replicasFor_eq, replicasFor_eq]
  exact (take_sublist_take_left (by omega)).subset

end Order

section Members

variable {vnodesPerNode : Nat} {ids : List NodeId}

def TokensApart (vnodesPerNode : Nat) (ids : List NodeId) : Prop :=
  ∀ a ∈ ids, ∀ b ∈ ids, ∀ i < max vnodesPerNode 1, ∀ j < max vnodesPerNode 1,
    hashToken a i = hashToken b j → a = b

instance (vnodesPerNode : Nat) (ids : List NodeId) : Decidable (TokensApart vnodesPerNode ids) :=
  inferInstanceAs (Decidable (∀ a ∈ ids, ∀ b ∈ ids, ∀ i < max vnodesPerNode 1, ∀ j < max vnodesPerNode 1,
    hashToken a i = hashToken b j → a = b))

theorem TokensApart.subset (h : TokensApart vnodesPerNode ids) (hsub : ids' ⊆ ids) :
    TokensApart vnodesPerNode ids' :=
  fun a ha b hb => h a (hsub ha) b (hsub hb)

theorem get?_insertTokens {is : List Nat} {m : OrdMap UInt64 NodeId} :
    (is.foldl (fun m i => m.insert (hashToken node i) node) m).get? token =
      if ∃ i ∈ is, hashToken node i = token then some node else m.get? token := by
  induction is generalizing m with
  | nil => simp
  | cons i is ih =>
    rw [foldl_cons, ih, OrdMap.get?_insert]
    by_cases hi : hashToken node i = token
    · simp [hi]
    · simp [hi, Ne.symm hi]

structure Spread (r : Ring) (vnodesPerNode : Nat) : Prop where
  count : r.vnodesPerNode = max vnodesPerNode 1
  nodup : r.nodes.Nodup
  owner : ∀ token node, r.vnodes.get? token = some node ↔
    node ∈ r.nodes ∧ ∃ i < max vnodesPerNode 1, hashToken node i = token

theorem spread_new : (new vnodesPerNode).Spread vnodesPerNode :=
  ⟨rfl, nodup_nil, by simp [new]⟩

theorem Spread.addNode {r : Ring} (h : r.Spread vnodesPerNode)
    (hapart : TokensApart vnodesPerNode (node :: r.nodes)) : (r.addNode node).Spread vnodesPerNode := by
  unfold Ring.addNode
  split_ifs with hmem
  · exact h
  · refine ⟨h.count, nodup_cons.mpr ⟨hmem, h.nodup⟩, ?_⟩
    intro token owner
    rw [get?_insertTokens, h.count]
    simp only [mem_range]
    split_ifs with htoken
    · obtain ⟨i, hi, hti⟩ := htoken
      simp only [Option.some.injEq, mem_cons]
      constructor
      · rintro rfl
        exact ⟨.inl rfl, i, hi, hti⟩
      · rintro ⟨howner, j, hj, htj⟩
        exact hapart node (by simp) owner (by simpa using howner) i hi j hj (hti.trans htj.symm)
    · rw [h.owner, mem_cons]
      constructor
      · rintro ⟨howner, htok⟩
        exact ⟨.inr howner, htok⟩
      · rintro ⟨rfl | howner, htok⟩
        · exact absurd htok htoken
        · exact ⟨howner, htok⟩

theorem mem_nodes_addNode : other ∈ (r.addNode node).nodes ↔ other = node ∨ other ∈ r.nodes := by
  unfold addNode
  split_ifs with hmem
  · constructor
    · exact .inr
    · rintro (rfl | h)
      · exact hmem
      · exact h
  · exact mem_cons

theorem spread_foldl {r : Ring} (h : r.Spread vnodesPerNode) {ids : List NodeId}
    (hapart : TokensApart vnodesPerNode (ids ++ r.nodes)) : (ids.foldl Ring.addNode r).Spread vnodesPerNode ∧
      ∀ n, n ∈ (ids.foldl Ring.addNode r).nodes ↔ n ∈ ids ∨ n ∈ r.nodes := by
  induction ids generalizing r with
  | nil => exact ⟨h, by simp⟩
  | cons id ids ih =>
    rw [foldl_cons]
    have hnext := h.addNode (hapart.subset (by simp) : TokensApart vnodesPerNode (id :: r.nodes))
    have hrest : TokensApart vnodesPerNode (ids ++ (r.addNode id).nodes) := by
      refine hapart.subset ?_
      intro n hn
      rcases mem_append.mp hn with hn | hn
      · simp [hn]
      · rcases (mem_nodes_addNode r).mp hn with rfl | hn
        · simp
        · simp [hn]
    obtain ⟨hspread, hmem⟩ := ih hnext hrest
    refine ⟨hspread, ?_⟩
    intro n
    rw [hmem, mem_nodes_addNode, mem_cons]
    tauto

theorem spread_ofMembers (hapart : TokensApart vnodesPerNode ids) :
    (ofMembers vnodesPerNode ids).Spread vnodesPerNode ∧
      ∀ n, n ∈ (ofMembers vnodesPerNode ids).nodes ↔ n ∈ ids := by
  obtain ⟨hspread, hmem⟩ := spread_foldl spread_new
    (by simpa [new] using hapart)
  exact ⟨hspread, fun n => by rw [ofMembers, hmem]; simp [new]⟩

theorem mem_walk {r : Ring} : n ∈ r.walk h ↔ ∃ token, r.vnodes.get? token = some n := by
  unfold walk
  rw [mem_map]
  constructor
  · rintro ⟨⟨token, owner⟩, he, rfl⟩
    refine ⟨token, r.vnodes.get?_eq_some_iff.mpr ?_⟩
    rcases mem_append.mp he with he | he
    · exact (mem_filter.mp he).1
    · exact (mem_filter.mp he).1
  · rintro ⟨token, hget⟩
    have hentry := r.vnodes.get?_eq_some_iff.mp hget
    refine ⟨(token, n), mem_append.mpr ?_, rfl⟩
    rcases le_or_gt h token with hle | hlt
    · exact .inl (mem_filter.mpr ⟨hentry, by simpa using hle⟩)
    · exact .inr (mem_filter.mpr ⟨hentry, by simpa using hlt⟩)

theorem Spread.order_perm {r : Ring} (h : r.Spread vnodesPerNode) (key : Bytes) :
    (r.order key).Perm r.nodes := by
  refine (perm_ext_iff_of_nodup (r.nodup_order key) h.nodup).mpr ?_
  intro n
  unfold order
  rw [mem_distinct, mem_walk]
  constructor
  · rintro ⟨token, hget⟩
    exact ((h.owner token n).mp hget).1
  · intro hn
    exact ⟨hashToken n 0, (h.owner _ n).mpr ⟨hn, 0, by omega, rfl⟩⟩

theorem replicasFor_ofMembers (hapart : TokensApart vnodesPerNode ids) {key : Bytes} {rf : Nat} :
    (ofMembers vnodesPerNode ids).replicasFor key rf = ((ofMembers vnodesPerNode ids).order key).take rf := by
  have hlen := ((spread_ofMembers hapart).1.order_perm key).length_eq
  rw [replicasFor_eq, ← hlen]
  rcases le_total rf ((ofMembers vnodesPerNode ids).order key).length with hle | hle
  · rw [Nat.min_eq_left hle]
  · rw [Nat.min_eq_right hle, take_length, take_of_length_le hle]

theorem order_filter {more less : Ring} (h : less.vnodes = more.vnodes.filter (fun e => keep e.2))
    (key : Bytes) : less.order key = (more.order key).filter keep := by
  unfold order walk
  rw [h, ← distinct_filter, filter_map, filter_append]
  congr 2
  simp only [OrdMap.filter, filter_filter, Function.comp_def]
  congr 1
  · exact filter_congr (fun e _ => Bool.and_comm _ _)
  · exact filter_congr (fun e _ => Bool.and_comm _ _)

theorem Spread.order_filter {more less : Ring} (h : more.Spread vnodesPerNode) (h' : less.Spread vnodesPerNode)
    (keep : NodeId → Bool) (hnodes : ∀ n, n ∈ less.nodes ↔ n ∈ more.nodes ∧ keep n) (key : Bytes) :
    less.order key = (more.order key).filter keep := by
  refine Ring.order_filter (ext_entries (eq_of_lookup_eq (sorted _) (sorted _) ?_)) key
  intro token
  refine Option.ext ?_
  intro owner
  show OrdMap.get? _ token = some owner ↔ OrdMap.get? _ token = some owner
  rw [h'.owner, OrdMap.get?_eq_some_iff]
  show _ ↔ (token, owner) ∈ List.filter _ _
  rw [mem_filter, ← OrdMap.get?_eq_some_iff, h.owner, hnodes]
  tauto

theorem order_without (hapart : TokensApart vnodesPerNode ids) :
    (ofMembers vnodesPerNode (ids.filter (fun n => n ≠ leaving))).order key =
      ((ofMembers vnodesPerNode ids).order key).filter (fun n => n ≠ leaving) := by
  obtain ⟨hspread, hmem⟩ := spread_ofMembers hapart
  obtain ⟨hspread', hmem'⟩ := spread_ofMembers (hapart.subset (filter_subset_self _))
  exact hspread.order_filter hspread' _ (fun n => by rw [hmem', mem_filter, hmem]) key

-- Removing a node replaces it by at most one new replica, and changes nothing where it was
-- no replica.
theorem replicasFor_without (hapart : TokensApart vnodesPerNode ids) (leaving : NodeId) (key : Bytes) (rf : Nat) :
    (ofMembers vnodesPerNode (ids.filter (fun n => n ≠ leaving))).replicasFor key rf =
      if leaving ∈ (ofMembers vnodesPerNode ids).replicasFor key rf then
        ((ofMembers vnodesPerNode ids).replicasFor key rf).filter (fun n => n ≠ leaving) ++
          (((ofMembers vnodesPerNode ids).order key).drop rf).take 1
      else (ofMembers vnodesPerNode ids).replicasFor key rf := by
  have hkept : TokensApart vnodesPerNode (ids.filter (fun n => n ≠ leaving)) :=
    hapart.subset (filter_subset_self _)
  rw [replicasFor_ofMembers hkept, replicasFor_ofMembers hapart, order_without hapart]
  exact take_filter_ne (nodup_order _ key)

end Members

end Ring

end Skaidb.Cluster
