import Skaidb.Cluster.Intersection
import Skaidb.Cluster.Placement

namespace Skaidb.Cluster

open Skaidb.Base Skaidb.Storage Copies

section Reaches

variable {c c' : Copies}

def Copies.reaches (c : Copies) (v : Version) (node : NodeId) : Bool :=
  (c.applied node).any (fun u => v.1 ≤ u.1)

theorem Copies.reaches_iff : c.reaches v node = true ↔ ∃ u ∈ c.applied node, v.1 ≤ u.1 := by
  simp [reaches]

theorem Copies.reaches_of_mem (h : v ∈ c.applied node) : c.reaches v node = true :=
  reaches_iff.mpr ⟨v, h, le_refl _⟩

theorem Copies.Grows.reaches (h : c.Grows c') (hc : c.reaches v node = true) : c'.reaches v node = true := by
  obtain ⟨u, hu, hle⟩ := reaches_iff.mp hc
  exact reaches_iff.mpr ⟨u, h node u hu, hle⟩

theorem Copies.reaches_trans (hvu : v.1 ≤ u.1) (h : c.reaches u node = true) : c.reaches v node = true := by
  obtain ⟨x, hx, hle⟩ := reaches_iff.mp h
  exact reaches_iff.mpr ⟨x, hx, hvu.trans hle⟩

theorem Copies.highest_of_reaches (h : c.reaches v node = true) : ∃ u, c.highest node = some u ∧ v.1 ≤ u.1 := by
  obtain ⟨w, hw, hle⟩ := reaches_iff.mp h
  obtain ⟨u, hu, hwu⟩ := exists_highest hw
  exact ⟨u, hu, hle.trans hwu⟩

end Reaches

def View.coordinator (v : View) (own : Node) : Node := { own with id := v.id, peerAddr := v.peerAddr }

-- The nodes with their views, those that serve clients, the copies of one row, and the
-- versions of it that were acknowledged at QUORUM.
structure Fleet where
  view : NodeId → View
  named : ∀ n, (view n).id = n
  live : List NodeId
  copies : Copies
  acked : List Version

namespace Fleet

variable (table : String) (key : Bytes) (w : Fleet)

def replicas (n : NodeId) : List NodeId := (w.view n).effectiveReplicas table key

def write (n : NodeId) (own : Node) (v : Version) (env : WriteEnv) : Fleet :=
  let out := ((w.view n).coordinator own).replicate w.copies (w.replicas table key n) (some .quorum) v env
  { w with
    copies := out.copies
    acked := match out.result with
      | .ok _ => v :: w.acked
      | .error _ => w.acked }

def land (writes : List (NodeId × Version)) : Fleet := { w with copies := w.copies.land writes }

def adopt (u : Update) (reached : List NodeId) : Fleet :=
  { w with
    view := fun n => if n ∈ reached then { w.view n with topo := (w.view n).topo.setMembership u } else w.view n
    named := by
      intro n
      split_ifs
      · exact w.named n
      · exact w.named n }

-- Every QUORUM read through a node in service returns a version at least as high as every
-- one that was acknowledged.
def Seen : Prop :=
  ∀ v ∈ w.acked, ∀ n ∈ w.live, ∀ (Doc : Type) (decode : Bytes → Except String (Option Doc)) (own : Node)
    (env : ReadEnv) (out : ReadOutcome Doc),
    ((w.view n).coordinator own).pointGet decode w.copies (w.replicas table key n) (some .quorum) key env = .ok out →
      ∃ b, out.best = some b ∧ v.1 ≤ b.1

-- In every view in service the replicas without an acknowledged version are too few to
-- answer a read by themselves.
def Covered : Prop := ∀ v ∈ w.acked, ∀ n ∈ w.live, Covers (w.replicas table key n) (w.copies.reaches v)

variable {table : String} {key : Bytes} {w : Fleet}

theorem required_quorum : Consistency.quorum.required (max n 1) = majority n := by
  simp [Consistency.required, majority]

theorem Covered.seen (h : w.Covered table key) : w.Seen table key := by
  intro v hv n hn Doc decode own env out hread
  obtain ⟨heard, hsub, hlen, hreaches, -⟩ := Node.pointGet_ok hread
  rw [Option.getD_some, required_quorum] at hlen
  obtain ⟨node, hnode, hheld⟩ := (h v hv n hn).exists_mem hsub hlen
  obtain ⟨u, hu, hle⟩ := reaches_iff.mp hheld
  obtain ⟨b, hb, hub⟩ := hreaches node hnode u hu
  exact ⟨b, hb, hle.trans hub⟩

variable {v : Version}

theorem quorate_of_replicate {n : Node} {c : Copies} {replicas : List NodeId}
    (h : (n.replicate c replicas (some .quorum) v env).result = .ok ()) :
    Quorate replicas ((n.replicate c replicas (some .quorum) v env).copies.reaches v) := by
  obtain ⟨holders, hsub, hlen, hholds⟩ := Node.replicate_ok h
  rw [Option.getD_some, required_quorum] at hlen
  exact quorate_of_holders hsub hlen (fun a ha => reaches_of_mem (hholds a ha))

section

variable (h : w.Covered table key)

include h

theorem Covered.grow (hgrows : w.copies.Grows c) :
    ({ w with copies := c } : Fleet).Covered table key :=
  fun v hv n hn => (h v hv n hn).mono (fun _ _ => hgrows.reaches)

theorem Covered.land (writes : List (NodeId × Version)) : (w.land writes).Covered table key :=
  h.grow (w.copies.grows_land writes)

theorem Covered.write_of {n : NodeId} {own : Node}
    (hcovers : ∀ m ∈ w.live, ∀ holds, Quorate (w.replicas table key n) holds → Covers (w.replicas table key m) holds) :
    (w.write table key n own v env).Covered table key := by
  have hgrows := Node.replicate_grows ((w.view n).coordinator own) w.copies (w.replicas table key n)
    (some .quorum) v env
  have hold := h.grow hgrows
  unfold Fleet.write
  dsimp only
  split
  case h_2 => exact hold
  case h_1 hok =>
    intro u hu m hm
    obtain rfl | hu := List.mem_cons.mp hu
    · exact hcovers m hm _ (quorate_of_replicate hok)
    · exact hold u hu m hm

theorem Covered.write (hsame : ∀ m ∈ w.live, (w.replicas table key m).Perm (w.replicas table key n)) :
    (w.write table key n own v env).Covered table key :=
  h.write_of (fun m hm _ hq => hq.covers.perm (hsame m hm))

end

theorem view_adopt :
    (w.adopt u reached).view n = w.view n ∨ (w.adopt u reached).view n = { w.view n with topo := .build u } := by
  unfold adopt Topology.setMembership
  dsimp only
  split_ifs
  · exact .inl rfl
  · exact .inr rfl
  · exact .inl rfl

section Alike

-- One configuration and one catalog everywhere, in which the table's placement is settled.
structure Alike (table : String) (vnodesPerNode replicationFactor : Nat) (p : TablePlacement) (v : View) : Prop where
  vnodes : v.vnodesPerNode = vnodesPerNode
  factor : v.replicationFactor = replicationFactor
  placed : v.tablePlacementFull table = (p, none)

variable {v v' : View} (h : Alike table vnodesPerNode replicationFactor p v)

include h

theorem Alike.withTopo (topo : Topology) :
    Alike table vnodesPerNode replicationFactor p { v with topo := topo } :=
  { h with }

theorem Alike.tablePlacement : v.tablePlacement table = p := by
  rw [View.tablePlacement, h.placed]

theorem Alike.tableRf (h' : Alike table vnodesPerNode replicationFactor p v') : v.tableRf p = v'.tableRf p := by
  cases p <;> simp [View.tableRf, h.factor, h'.factor]

end Alike

end Fleet

end Skaidb.Cluster
