import Skaidb.Cluster.Placement
import Skaidb.Schema.LastWriter

namespace Skaidb.Cluster

open Skaidb.Base Skaidb.Schema Skaidb.Storage List View

section Routing

variable (v : View) (table : String)

-- `replicate_batch`: the rows of a statement by replica set, each group sent as one batch.
def View.addToGroup (groups : List (List NodeId × List BatchRow)) (row : BatchRow) :
    List (List NodeId × List BatchRow) :=
  let replicas := v.placedReplicas (v.tablePlacement table) (placement table row.key)
  if groups.any (fun g => g.1 = replicas) then
    groups.map (fun g => if g.1 = replicas then (g.1, g.2 ++ [row]) else g)
  else groups ++ [(replicas, [row])]

def View.batchGroups (rows : List BatchRow) : List (List NodeId × List BatchRow) :=
  rows.foldl (v.addToGroup table) []

def View.scanSources : List NodeId :=
  match v.tablePlacement table with
  | .pinned pins => pins.filter (fun p => p = v.id || (v.peerAddr p).isSome)
  | _ => v.id :: v.peers

-- The nodes that count as owners of a row: those repair pushes it to or pulls it for, and
-- those that keep it in reclaim.
def View.owners (key : Bytes) : List NodeId :=
  v.placedReplicas (v.tablePlacement table) (placement table key)

theorem View.batchGroups_spec : ∀ g ∈ v.batchGroups table rows, ∀ row ∈ g.2, g.1 = v.owners table row.key := by
  have hstep : ∀ groups row,
      (∀ g ∈ groups, ∀ r ∈ g.2, g.1 = v.owners table r.key) →
      ∀ g ∈ v.addToGroup table groups row, ∀ r ∈ g.2, g.1 = v.owners table r.key := by
    intro groups row hgroups g hg r hr
    unfold addToGroup at hg
    simp only at hg
    split_ifs at hg with hany
    · obtain ⟨g₀, hg₀, rfl⟩ := mem_map.mp hg
      split_ifs at hr ⊢ with heq
      · obtain hr | hr := mem_append.mp hr
        · exact hgroups g₀ hg₀ r hr
        · rw [mem_singleton.mp hr]
          exact heq
      · exact hgroups g₀ hg₀ r hr
    · obtain hg | hg := mem_append.mp hg
      · exact hgroups g hg r hr
      · rw [mem_singleton.mp hg] at hr ⊢
        rw [mem_singleton.mp hr]
        rfl
  have hall : ∀ groups : List (List NodeId × List BatchRow),
      (∀ g ∈ groups, ∀ r ∈ g.2, g.1 = v.owners table r.key) →
      ∀ g ∈ rows.foldl (v.addToGroup table) groups, ∀ r ∈ g.2, g.1 = v.owners table r.key := by
    induction rows with
    | nil => exact fun _ h => h
    | cons row rest ih => exact fun groups h => ih _ (hstep groups row h)
  exact hall [] (by simp)

end Routing

-- A node's view while it runs, and the members before the change of membership that is open,
-- if one is.
structure Watched where
  view : View
  since : List NodeId

inductive ViewEvent where
  | update (u : Update)
  | restart (members : List Member) (epoch : UInt64)
  | ddl (world : World) (hlc : Hlc) (s : Statement)

variable (w : Watched)

namespace Watched

-- The topology file does not have the previous members: a restart forgets them.
def step : ViewEvent → Watched
  | .update u =>
    { view := { w.view with topo := w.view.topo.setMembership u }
      since := if u.epoch ≤ w.view.topo.epoch ∧ w.view.topo.epoch ≠ 0 then w.since
        else u.prevMembers.map Prod.fst }
  | .restart members epoch => { w with view := { w.view with topo := .fromMembers members epoch } }
  | .ddl world hlc s =>
    { w with view := { w.view with catalog := (s.apply world w.view.catalog hlc).1 } }

-- The replicas of a key under one placement, before and after the open change of membership.
def Owner (p : TablePlacement) (key : Bytes) (n : NodeId) : Prop :=
  let onRings (rf : Nat) : Prop := n ∈ w.view.ring.replicasFor key rf ∨
    w.since ≠ [] ∧ n ∈ (Ring.ofMembers w.view.vnodesPerNode w.since).replicasFor key rf
  match p with
  | .pinned pins => n ∈ pins
  | .rf rf => onRings rf
  | .default => onRings w.view.replicationFactor

def InUnion (table : String) (key : Bytes) (n : NodeId) : Prop :=
  let placements := w.view.tablePlacementFull table
  w.Owner placements.1 (placement table key) n ∨
    ∃ prev, placements.2 = some prev ∧ w.Owner prev (placement table key) n

end Watched

inductive Path where
  | write
  | batch
  | pointGet
  | scan
  | repair
  | reclaim
  deriving DecidableEq

-- A path goes to `n` for a key. A scan reads whole shards, of the nodes that can be reached.
def View.Addresses (v : View) (table : String) (key : Bytes) (n : NodeId) : Path → Prop
  | .write | .pointGet => n ∈ v.effectiveReplicas table key
  | .batch => ∀ rows, ∀ g ∈ v.batchGroups table rows, ∀ row ∈ g.2, row.key = key → n ∈ g.1
  | .scan => n = v.id ∨ n ∈ v.peers → n ∈ v.scanSources table
  | .repair | .reclaim => n ∈ v.owners table key

namespace Watched

def AddressesUnion : Prop :=
  ∀ path table key n, w.InUnion table key n → w.view.Addresses table key n path

def grows (rf : Nat) : TablePlacement → TablePlacement → Bool
  | .pinned old, .pinned new => old.all (fun p => p ∈ new)
  | .pinned _, _ | _, .pinned _ => false
  | old, new => factor old ≤ factor new
where
  factor : TablePlacement → Nat
    | .rf n => n
    | _ => rf

def growing (rf : Nat) (d : TableDef) : Bool :=
  d.prevPlacement.all (fun p =>
    grows rf (View.shape p.replication p.pinnedNodes) (View.shape d.replication d.pinnedNodes))

-- No restart while a change of membership is open, and no statement leaves a table in a
-- transition that takes replicas away.
def Orderly : ViewEvent → Prop
  | .update _ => True
  | .restart _ _ => w.since = []
  | .ddl world hlc s =>
    ∀ e ∈ (s.apply world w.view.catalog hlc).1.tables.entries, growing w.view.replicationFactor e.2 = true

instance (w : Watched) : (e : ViewEvent) → Decidable (w.Orderly e)
  | .update _ => isTrue trivial
  | .restart _ _ => inferInstanceAs (Decidable (w.since = []))
  | .ddl _ _ _ => inferInstanceAs (Decidable (∀ e ∈ _, _))

structure Inv (w : Watched) : Prop where
  known : w.since = w.view.topo.prev
  growing : ∀ e ∈ w.view.catalog.tables.entries, growing w.view.replicationFactor e.2 = true

theorem Inv.step {w : Watched} (h : w.Inv) (e : ViewEvent) (he : w.Orderly e) : (w.step e).Inv := by
  cases e with
  | update u =>
    refine ⟨?_, h.growing⟩
    simp only [Watched.step, Topology.setMembership]
    split_ifs with hold
    · exact h.known
    · rfl
  | restart members epoch =>
    refine ⟨?_, h.growing⟩
    rw [Orderly] at he
    simp [Watched.step, he, Topology.fromMembers, Topology.build]
  | ddl world hlc s => exact ⟨h.known, he⟩

section Paths

variable {w : Watched}

theorem owner_iff (hknown : w.since = w.view.topo.prev) :
    w.Owner p key n ↔ n ∈ w.view.placedReplicas p key := by
  have hrings : ∀ rf, (n ∈ w.view.ring.replicasFor key rf ∨
      w.since ≠ [] ∧ n ∈ (Ring.ofMembers w.view.vnodesPerNode w.since).replicasFor key rf) ↔
      n ∈ w.view.replicasForRf key rf := by
    intro rf
    unfold replicasForRf prevRing
    rw [hknown]
    split_ifs with hprev
    · simp [hprev]
    · simp [hprev, mem_union]
  cases p with
  | pinned pins =>
    simp only [Owner, placedReplicas]
    split_ifs with hid
    · by_cases hn : n = w.view.id
      · simp [hn, hid]
      · simp [hn, mem_erase_of_ne hn]
    · rfl
  | rf rf => exact hrings rf
  | default => exact hrings w.view.replicationFactor

theorem owner_of_grows (h : grows w.view.replicationFactor old new = true) (hn : w.Owner old key n) :
    w.Owner new key n := by
  have hrings : ∀ {rf rf' : Nat}, rf ≤ rf' → (n ∈ w.view.ring.replicasFor key rf ∨
      w.since ≠ [] ∧ n ∈ (Ring.ofMembers w.view.vnodesPerNode w.since).replicasFor key rf) →
      n ∈ w.view.ring.replicasFor key rf' ∨
        w.since ≠ [] ∧ n ∈ (Ring.ofMembers w.view.vnodesPerNode w.since).replicasFor key rf' := by
    rintro rf rf' hle (hn | ⟨hs, hn⟩)
    · exact .inl (Ring.replicasFor_mono _ _ hle hn)
    · exact .inr ⟨hs, Ring.replicasFor_mono _ _ hle hn⟩
  cases old with
  | pinned old =>
    cases new with
    | pinned new =>
      simp only [grows, all_eq_true, decide_eq_true_eq] at h
      exact h n hn
    | rf _ | default => cases h
  | rf old =>
    cases new with
    | pinned _ => cases h
    | rf new | default => exact hrings (of_decide_eq_true h) hn
  | default =>
    cases new with
    | pinned _ => cases h
    | rf new | default => exact hrings (of_decide_eq_true h) hn

theorem Inv.owner (h : w.Inv) (hn : w.InUnion table key n) :
    w.Owner (w.view.tablePlacement table) (placement table key) n := by
  obtain hn | ⟨prev, hprev, hn⟩ := hn
  · exact hn
  · unfold tablePlacement
    unfold tablePlacementFull at hprev ⊢
    cases hget : (w.view.placementTable table).bind w.view.catalog.tables.get? with
    | none =>
      rw [hget] at hprev
      cases hprev
    | some d =>
      rw [hget] at hprev
      obtain ⟨name, -, hd⟩ := Option.bind_eq_some_iff.mp hget
      have hgrows := h.growing _ ((OrdMap.get?_eq_some_iff _).mp hd)
      obtain ⟨p, hp, rfl⟩ := Option.map_eq_some_iff.mp hprev
      rw [Watched.growing, hp] at hgrows
      exact owner_of_grows hgrows hn

theorem Inv.addressesUnion (h : w.Inv) : w.AddressesUnion := by
  intro path table key n hn
  have howner := h.owner hn
  have hreplica : n ∈ w.view.owners table key := (owner_iff h.known).mp howner
  have heffective : n ∈ w.view.effectiveReplicas table key := by
    unfold effectiveReplicas
    simp only
    split
    · exact hreplica
    · exact mem_union.mpr (.inl hreplica)
  cases path with
  | write | pointGet => exact heffective
  | batch =>
    intro rows g hg row hrow hkey
    rw [w.view.batchGroups_spec table g hg row hrow, hkey]
    exact hreplica
  | scan =>
    intro hreach
    unfold scanSources
    cases hp : w.view.tablePlacement table with
    | pinned pins =>
      rw [hp] at howner
      refine mem_filter.mpr ⟨howner, ?_⟩
      obtain hself | hpeer := hreach
      · simp [hself]
      · simp [w.view.peerAddr_isSome_iff.mpr hpeer]
    | rf _ | default => exact mem_cons.mpr hreach
  | repair | reclaim => exact hreplica

end Paths

def start (id : NodeId) (members : List Member) (epoch : UInt64) (vnodesPerNode rf : Nat) : Watched :=
  ⟨⟨id, .fromMembers members epoch, vnodesPerNode, rf, Catalog.default⟩, []⟩

theorem addressesUnion_run (id : NodeId) (members : List Member) (epoch : UInt64) (vnodesPerNode rf : Nat)
    (events : List ViewEvent) (hrun : Along step Orderly (start id members epoch vnodesPerNode rf) events) :
    (events.foldl step (start id members epoch vnodesPerNode rf)).AddressesUnion := by
  have hstart : (start id members epoch vnodesPerNode rf).Inv := ⟨rfl, by intro e he; cases he⟩
  exact (hrun.invariant (fun w e hw he => hw.step e he) hstart).addressesUnion

section Scenarios

def pair : List Member := [(⟨"a"⟩, "a:1"), (⟨"b"⟩, "b:1")]

def alterNodes (stamp : UInt64) (value : String) : ViewEvent :=
  .ddl plainWorld ⟨stamp, 0⟩ (.alterTable "t" (.setOptions [("nodes", value)]))

def pinnedTable : ViewEvent :=
  .ddl plainWorld ⟨1, 0⟩ (.createTable ⟨"t", false, ["id"], none, false, none, ["a"], false⟩)

def growingRun : List ViewEvent :=
  [pinnedTable, .update ⟨1, pair ++ [(⟨"c"⟩, "c:1")], pair⟩, alterNodes 2 "a,c"]

def movingRun : List ViewEvent := [pinnedTable, alterNodes 2 "b"]

theorem addressesUnion_growingRun : Along step Orderly (start ⟨"a"⟩ pair 0 1 2) growingRun ∧
      (growingRun.foldl step (start ⟨"a"⟩ pair 0 1 2)).AddressesUnion :=
  ⟨by decide, addressesUnion_run ⟨"a"⟩ pair 0 1 2 growingRun (by decide)⟩

-- While the pin moves from `a` to `b`, a batch is not sent to `a`.
theorem batch_leaves_previous_pin_out : ¬(movingRun.foldl step (start ⟨"a"⟩ pair 0 1 2)).AddressesUnion := by
  intro h
  have hin : (movingRun.foldl step (start ⟨"a"⟩ pair 0 1 2)).InUnion "t" [1] ⟨"a"⟩ :=
    .inr ⟨.pinned [⟨"a"⟩], by decide, mem_singleton.mpr rfl⟩
  have haddr := h .batch "t" [1] ⟨"a"⟩ hin [⟨[1], [2], ⟨3, 0⟩, true⟩]
    ([⟨"b"⟩], [⟨[1], [2], ⟨3, 0⟩, true⟩]) (by decide) ⟨[1], [2], ⟨3, 0⟩, true⟩ (by decide) rfl
  exact absurd haddr (by decide)

end Scenarios

end Watched

end Skaidb.Cluster
