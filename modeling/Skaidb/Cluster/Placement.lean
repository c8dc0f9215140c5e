import Skaidb.Cluster.Ring
import Skaidb.Cluster.Scan
import Skaidb.Cluster.Topology
import Skaidb.Schema.Statements

namespace Skaidb.Cluster

open Skaidb.Base Skaidb.Schema Skaidb.Storage List

-- What a node's routing reads: its own id, its view of the membership, its configuration
-- and its catalog.
structure View where
  id : NodeId
  topo : Topology
  vnodesPerNode : Nat
  replicationFactor : Nat
  catalog : Catalog

def isGidxTable (table : String) : Bool := "__gidx__".toList.isPrefixOf (split table).2.toList

-- The length header and the values of an entry key, without the row key behind them.
def gidxPlacementPrefix (key : Bytes) : Bytes :=
  match key with
  | hi :: lo :: _ =>
    let n := hi.toNat * 256 + lo.toNat
    if 2 + n ≤ key.length then key.take (2 + n) else key
  | _ => key

-- The bytes that place a key: the values alone for an entry of a global index.
def placement (table : String) (key : Bytes) : Bytes :=
  if isGidxTable table then gidxPlacementPrefix key else key

def union (reps others : List NodeId) : List NodeId :=
  others.foldl (fun reps n => if n ∈ reps then reps else reps ++ [n]) reps

theorem mem_union : n ∈ union reps others ↔ n ∈ reps ∨ n ∈ others := by
  unfold union
  induction others generalizing reps with
  | nil => simp
  | cons m rest ih =>
    rw [foldl_cons, ih]
    split_ifs with hm
    · simp only [mem_cons]
      constructor
      · rintro (h | h)
        · exact .inl h
        · exact .inr (.inr h)
      · rintro (h | rfl | h)
        · exact .inl h
        · exact .inl hm
        · exact .inr h
    · simp only [mem_append, mem_cons, not_mem_nil, false_or, or_assoc]

namespace View

variable (v : View)

def ring : Ring := Ring.ofMembers v.vnodesPerNode (v.topo.members.map Prod.fst)

def prevRing : Option Ring :=
  if v.topo.prev = [] then none else some (Ring.ofMembers v.vnodesPerNode v.topo.prev)

-- The peer table is keyed by id; of two entries for one id the later counts.
def peerAddr (id : NodeId) : Option String :=
  if id = v.id then none else (v.topo.members.reverse.find? (fun m => m.1 = id)).map Prod.snd

def peers : List NodeId := (distinct (v.topo.members.map Prod.fst)).filter (fun id => id ≠ v.id)

theorem peerAddr_isSome_iff {v : View} {id : NodeId} : (v.peerAddr id).isSome = true ↔ id ∈ v.peers := by
  unfold peerAddr peers
  rw [mem_filter, mem_distinct]
  split_ifs with hself
  · simp [hself]
  · simp [hself, List.find?_isSome]

def memberCount : Nat := v.peers.length + 1

def replicasForRf (key : Bytes) (rf : Nat) : List NodeId :=
  match v.prevRing with
  | none => v.ring.replicasFor key rf
  | some prev => union (v.ring.replicasFor key rf) (prev.replicasFor key rf)

def replicasFor (key : Bytes) : List NodeId := v.replicasForRf key v.replicationFactor

def shape (replication : Option Nat) (pins : List String) : TablePlacement :=
  if pins ≠ [] then .pinned (pins.map NodeId.mk)
  else
    match replication with
    | some n => .rf n
    | none => .default

-- Entries of a global index are placed as the rows of its table.
def placementTable (table : String) : Option String :=
  if isGidxTable table then
    let (db, bare) := split table
    match v.catalog.indexes.get? (qualify db (String.ofList (bare.toList.drop "__gidx__".length))) with
    | some d => if d.global then some d.table else none
    | none => none
  else some table

def tablePlacementFull (table : String) : TablePlacement × Option TablePlacement :=
  match (v.placementTable table).bind v.catalog.tables.get? with
  | none => (.default, none)
  | some d =>
    (shape d.replication d.pinnedNodes, d.prevPlacement.map (fun p => shape p.replication p.pinnedNodes))

def tablePlacement (table : String) : TablePlacement := (v.tablePlacementFull table).1

def placedReplicas (p : TablePlacement) (key : Bytes) : List NodeId :=
  match p with
  | .pinned pins => if v.id ∈ pins then v.id :: pins.erase v.id else pins
  | .rf n => v.replicasForRf key n
  | .default => v.replicasForRf key v.replicationFactor

def tableRf (p : TablePlacement) : Nat :=
  match p with
  | .rf n => n
  | _ => v.replicationFactor

def effectiveReplicas (table : String) (key : Bytes) : List NodeId :=
  let (cur, prev) := v.tablePlacementFull table
  let key := placement table key
  match prev with
  | none => v.placedReplicas cur key
  | some prev => union (v.placedReplicas cur key) (v.placedReplicas prev key)

section Settled

variable {v : View} {table : String} {key : Bytes} {p : TablePlacement}

theorem effectiveReplicas_ring (hplaced : v.tablePlacementFull table = (p, none))
    (hring : ∀ pins, p ≠ .pinned pins) (hprev : v.topo.prev = []) : v.effectiveReplicas table key =
      (Ring.ofMembers v.vnodesPerNode (v.topo.members.map Prod.fst)).replicasFor (placement table key)
        (v.tableRf p) := by
  have hnone : v.prevRing = none := if_pos hprev
  unfold effectiveReplicas
  rw [hplaced]
  cases p with
  | pinned pins => exact absurd rfl (hring pins)
  | rf n | default => simp [placedReplicas, replicasForRf, hnone, tableRf, ring]

theorem effectiveReplicas_pinned (hplaced : v.tablePlacementFull table = (.pinned pins, none)) :
    (v.effectiveReplicas table key).Perm pins := by
  unfold effectiveReplicas
  rw [hplaced]
  show (if v.id ∈ pins then v.id :: pins.erase v.id else pins).Perm pins
  split_ifs with hmem
  · exact (perm_cons_erase hmem).symm
  · exact Perm.refl _

end Settled

end View

end Skaidb.Cluster
