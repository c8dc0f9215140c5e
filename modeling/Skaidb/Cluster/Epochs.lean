import Mathlib.Logic.Function.Basic
import Skaidb.Cluster.Topology

namespace Skaidb.Cluster

open Skaidb.Base List

section Calls

-- Where a membership call stands on the node that runs it; the membership lock keeps it to
-- one a node. `own` says whether the node adopts the update itself, `join` whether a
-- migration and a second update follow.
inductive Job where
  | recheck (members : List Member)
  | draining (members : List Member) (own : Bool)
  | ready (members prev : List Member) (own join : Bool)
  | picked (u : Update) (own join : Bool)
  | migrating (members : List Member)

structure Host where
  topo : Topology
  file : Option String
  job : Option Job

-- All nodes, the updates whose epochs have been picked, and the messages sent. A message may
-- be lost, delayed or repeated: it stays in the list.
structure Hosts where
  cfg : NodeId → List Member
  host : NodeId → Host
  picked : List Update
  sent : List Update

namespace Hosts

variable (hs : Hosts) (node : NodeId)

def start (cfg : NodeId → List Member) : Hosts :=
  ⟨cfg, fun node => ⟨.fromMembers (cfg node) 0, none, none⟩, [], []⟩

def set (h : Host) : Hosts := { hs with host := Function.update hs.host node h }

def addMember (id : NodeId) (addr : String) : Hosts :=
  let h := hs.host node
  match h.job with
  | some _ => hs
  | none =>
    if h.topo.members.any (fun m => m.1 = id) then hs.set node { h with job := some (.recheck h.topo.members) }
    else
      hs.set node { h with job := some (.ready (h.topo.members ++ [(id, addr)]) h.topo.members true true) }

-- `remove_member` up to the drain; a node that removes itself does not adopt the new list.
def removeMember (id : NodeId) : Hosts :=
  let h := hs.host node
  match h.job with
  | some _ => hs
  | none =>
    if !h.topo.members.any (fun m => m.1 = id) || h.topo.members.length ≤ 1 then hs
    else
      hs.set node
        { h with job := some (.draining (h.topo.members.filter (fun m => m.1 ≠ id)) (id ≠ node)) }

-- The next step of the call. The epoch is read when the lists are already fixed, and the
-- update is sent whether or not the node itself took it.
def proceed : Hosts :=
  let h := hs.host node
  match h.job with
  | none => hs
  | some (.recheck members) =>
    hs.set node { h with job := if h.topo.prev = [] then none else some (.ready members [] true false) }
  | some (.draining members own) => hs.set node { h with job := some (.ready members [] own false) }
  | some (.ready members prev own join) =>
    let u : Update := ⟨h.topo.epoch + 1, members, prev⟩
    { hs.set node { h with job := some (.picked u own join) } with picked := hs.picked ++ [u] }
  | some (.picked u own join) =>
    let topo := if own then h.topo.setMembership u else h.topo
    let job := if join then some (.migrating u.members) else none
    { hs.set node { h with topo := topo, job := job } with sent := hs.sent ++ [u] }
  | some (.migrating members) => hs.set node { h with job := some (.ready members [] true false) }

-- The topology file is renamed into place without an fsync: after a crash of the machine it
-- may not be readable.
def restart (readable : Bool) : Hosts :=
  let h := hs.host node
  let file := if readable then h.file else none
  let topo := match file.bind loadMembership with
    | some (members, epoch) => Topology.fromMembers members epoch
    | none => .fromMembers (hs.cfg node) 0
  hs.set node ⟨topo, file, none⟩

end Hosts

inductive MembershipEvent where
  | add (id : NodeId) (addr : String)
  | remove (id : NodeId)
  | proceed
  | fail
  | deliver (u : Update)
  | persist
  | restart (readable : Bool)
  deriving DecidableEq

def Hosts.step (hs : Hosts) (e : NodeId × MembershipEvent) : Hosts :=
  let h := hs.host e.1
  match e.2 with
  | .add id addr => hs.addMember e.1 id addr
  | .remove id => hs.removeMember e.1 id
  | .proceed => hs.proceed e.1
  | .fail => hs.set e.1 { h with job := none }
  | .deliver u => if u ∈ hs.sent then hs.set e.1 { h with topo := h.topo.setMembership u } else hs
  | .persist => hs.set e.1 { h with file := some (saveMembership h.topo.epoch h.topo.members) }
  | .restart readable => hs.restart e.1 readable

end Calls

section Agreement

def Hosts.Agree (hs : Hosts) : Prop :=
  ∀ m n, (hs.host m).topo.epoch = (hs.host n).topo.epoch →
    (hs.host m).topo.members = (hs.host n).topo.members ∧ (hs.host m).topo.prev = (hs.host n).topo.prev

-- Who picks an epoch knows the newest one, nobody restarts from a file written during a
-- change, and the names are such as the file can carry.
def Hosts.Careful (hs : Hosts) (e : NodeId × MembershipEvent) : Prop :=
  match e.2 with
  | .add id addr => cleanMember (id, addr) = true
  | .proceed =>
    match (hs.host e.1).job with
    | some (.ready _ _ _ _) => ∀ u ∈ hs.picked, u.epoch < (hs.host e.1).topo.epoch + 1
    | _ => True
  | .restart true =>
    match (hs.host e.1).file.bind loadMembership with
    | some (_, epoch) => ∀ u ∈ hs.picked, u.epoch = epoch → u.prevMembers = []
    | none => True
  | _ => True

instance (hs : Hosts) (e : NodeId × MembershipEvent) : Decidable (hs.Careful e) := by
  unfold Hosts.Careful
  split
  · infer_instance
  · split <;> infer_instance
  · split <;> infer_instance
  · infer_instance

def issued (base : List Member) (picked : List Update) : List Update := ⟨0, base, []⟩ :: picked

def Clean (members : List Member) : Prop := ∀ m ∈ members, cleanMember m = true

def Job.Known (picked : List Update) : Job → Prop
  | recheck members | draining members _ => Clean members
  | ready members prev _ _ => Clean members ∧ Clean prev
  | .picked u _ _ => u ∈ picked
  | migrating members => Clean members

structure Host.Known (base : List Member) (picked : List Update) (h : Host) : Prop where
  topo : ∃ u ∈ issued base picked, h.topo = .build u
  file : ∀ text ∈ h.file, ∃ u ∈ issued base picked, text = saveMembership u.epoch u.members
  job : ∀ j ∈ h.job, j.Known picked

structure Hosts.Coherent (base : List Member) (hs : Hosts) : Prop where
  cfg : ∀ n, hs.cfg n = base
  host : ∀ n, (hs.host n).Known base hs.picked
  sent : ∀ u ∈ hs.sent, u ∈ hs.picked
  unique : ∀ u ∈ issued base hs.picked, ∀ v ∈ issued base hs.picked, u.epoch = v.epoch → u = v
  clean : ∀ u ∈ issued base hs.picked, Clean u.members ∧ Clean u.prevMembers

variable {hs : Hosts} {picked : List Update}

theorem Job.Known.mono {j : Job} (h : j.Known picked) (u : Update) : j.Known (picked ++ [u]) := by
  cases j with
  | picked v own join => exact mem_append_left _ h
  | _ => exact h

theorem issued_append : v ∈ issued base (picked ++ [u]) ↔ v ∈ issued base picked ∨ v = u := by
  simp [issued, or_assoc]

theorem Host.Known.mono {h : Host} (hk : h.Known base picked) (u : Update) : h.Known base (picked ++ [u]) := by
  refine ⟨?_, ?_, fun j hj => (hk.job j hj).mono u⟩
  · obtain ⟨v, hv, heq⟩ := hk.topo
    exact ⟨v, issued_append.mpr (.inl hv), heq⟩
  · intro text htext
    obtain ⟨v, hv, heq⟩ := hk.file text htext
    exact ⟨v, issued_append.mpr (.inl hv), heq⟩

theorem Hosts.Coherent.members_clean (h : hs.Coherent base) (n : NodeId) : Clean (hs.host n).topo.members := by
  obtain ⟨u, hu, heq⟩ := (h.host n).topo
  rw [heq]
  exact (h.clean u hu).1

theorem Hosts.Coherent.set (h : hs.Coherent base) {host : Host} (hk : host.Known base hs.picked) :
    (hs.set node host).Coherent base := by
  refine { h with host := ?_ }
  intro n
  by_cases hn : n = node
  · subst hn
    simpa [Hosts.set] using hk
  · simpa [Hosts.set, hn] using h.host n

theorem setMembership_known {topo : Topology} (h : ∃ v ∈ issued base picked, topo = .build v)
    (hu : u ∈ issued base picked) : ∃ v ∈ issued base picked, topo.setMembership u = .build v := by
  unfold Topology.setMembership
  split_ifs
  · exact h
  · exact ⟨u, hu, rfl⟩

section

variable (h : hs.Coherent base)

include h

theorem Hosts.Coherent.pick {members prev : List Member} {own join : Bool} (hm : Clean members)
    (hp : Clean prev) (hnew : ∀ u ∈ hs.picked, u.epoch < (hs.host node).topo.epoch + 1) :
    Hosts.Coherent base
      { hs.set node { hs.host node with
          job := some (.picked ⟨(hs.host node).topo.epoch + 1, members, prev⟩ own join) } with
        picked := hs.picked ++ [⟨(hs.host node).topo.epoch + 1, members, prev⟩] } := by
  have hepoch : ∀ u ∈ issued base hs.picked, u.epoch < (hs.host node).topo.epoch + 1 := by
    intro u hu
    obtain rfl | hu := mem_cons.mp hu
    · obtain ⟨v, hv, heq⟩ := (h.host node).topo
      obtain rfl | hv := mem_cons.mp hv
      · rw [heq]
        exact (by decide : 0 < 0 + 1)
      · exact lt_of_le_of_lt (UInt64.zero_le) (hnew v hv)
    · exact hnew u hu
  refine ⟨h.cfg, ?_, ?_, ?_, ?_⟩
  · intro n
    by_cases hn : n = node
    · subst hn
      have hold := (h.host n).mono ⟨(hs.host n).topo.epoch + 1, members, prev⟩
      refine ⟨by simpa [Hosts.set] using hold.topo, by simpa [Hosts.set] using hold.file, ?_⟩
      simp [Hosts.set, Job.Known]
    · simpa [Hosts.set, hn] using (h.host n).mono _
  · intro u hu
    exact mem_append_left _ (h.sent u hu)
  · intro u hu v hv heq
    rw [issued_append] at hu hv
    obtain hu | rfl := hu
    · obtain hv | rfl := hv
      · exact h.unique u hu v hv heq
      · exact absurd heq (hepoch u hu).ne
    · obtain hv | rfl := hv
      · exact absurd heq.symm (hepoch v hv).ne
      · rfl
  · intro u hu
    rw [issued_append] at hu
    obtain hu | rfl := hu
    · exact h.clean u hu
    · exact ⟨hm, hp⟩

theorem Hosts.Coherent.addMember {id : NodeId} (hclean : cleanMember (id, addr) = true) :
    (hs.addMember node id addr).Coherent base := by
  have hmembers := h.members_clean node
  unfold Hosts.addMember
  simp only
  split
  · exact h
  · split_ifs
    · refine h.set { h.host node with job := ?_ }
      simpa [Job.Known] using hmembers
    · refine h.set { h.host node with job := ?_ }
      simp only [Option.mem_def, Option.some.injEq, forall_eq', Job.Known]
      refine ⟨?_, hmembers⟩
      intro m hm
      obtain hm | hm := mem_append.mp hm
      · exact hmembers m hm
      · rw [mem_singleton.mp hm]
        exact hclean

theorem Hosts.Coherent.removeMember {id : NodeId} : (hs.removeMember node id).Coherent base := by
  have hmembers := h.members_clean node
  unfold Hosts.removeMember
  simp only
  split
  · exact h
  · split_ifs
    · exact h
    · refine h.set { h.host node with job := ?_ }
      simp only [Option.mem_def, Option.some.injEq, forall_eq', Job.Known]
      intro m hm
      exact hmembers m (mem_of_mem_filter hm)

theorem Hosts.Coherent.proceed (hcareful : hs.Careful (node, .proceed)) : (hs.proceed node).Coherent base := by
  have hjob := (h.host node).job
  unfold Hosts.proceed
  simp only
  split
  case h_1 => exact h
  case h_2 members heq =>
    refine h.set { h.host node with job := ?_ }
    intro j hj
    split_ifs at hj
    · simp at hj
    · obtain rfl := Option.mem_some.mp hj
      exact ⟨hjob _ heq, by simp [Clean]⟩
  case h_3 members own heq =>
    refine h.set { h.host node with job := ?_ }
    intro j hj
    obtain rfl := Option.mem_some.mp hj
    exact ⟨hjob _ heq, by simp [Clean]⟩
  case h_4 members prev own join heq =>
    obtain ⟨hm, hp⟩ := hjob _ heq
    exact h.pick hm hp (by simpa [Hosts.Careful, heq] using hcareful)
  case h_5 u own join heq =>
    have hu : u ∈ hs.picked := hjob _ heq
    have hissued : u ∈ issued base hs.picked := mem_cons_of_mem _ hu
    have hknown : Host.Known base hs.picked
        { hs.host node with
          topo := if own then (hs.host node).topo.setMembership u else (hs.host node).topo
          job := if join then some (.migrating u.members) else none } := by
      refine ⟨?_, (h.host node).file, ?_⟩
      · simp only
        split_ifs
        · exact setMembership_known (h.host node).topo hissued
        · exact (h.host node).topo
      · intro j hj
        simp only at hj
        split_ifs at hj
        · obtain rfl := Option.mem_some.mp hj
          exact (h.clean u hissued).1
        · simp at hj
    refine { h.set hknown with sent := ?_ }
    intro v hv
    obtain hv | hv := mem_append.mp hv
    · exact h.sent v hv
    · rw [mem_singleton.mp hv]
      exact hu
  case h_6 members heq =>
    refine h.set { h.host node with job := ?_ }
    intro j hj
    obtain rfl := Option.mem_some.mp hj
    exact ⟨hjob _ heq, by simp [Clean]⟩

-- A file holds the lists of an update that was issued; read back it is the same update if
-- that one was not part of a change.
theorem Hosts.Coherent.restart (hcareful : hs.Careful (node, .restart readable)) :
    (hs.restart node readable).Coherent base := by
  have hstart : ∃ u ∈ issued base hs.picked, Topology.fromMembers (hs.cfg node) 0 = .build u :=
    ⟨⟨0, base, []⟩, mem_cons_self, by rw [h.cfg node]; rfl⟩
  refine h.set ⟨?_, ?_, by simp⟩
  · cases readable with
    | false => simpa using hstart
    | true =>
      cases hfile : (hs.host node).file with
      | none => simpa [hfile] using hstart
      | some text =>
        obtain ⟨u, hu, rfl⟩ := (h.host node).file text hfile
        have hload : loadMembership (saveMembership u.epoch u.members) =
            if u.members = [] then none else some (u.members, u.epoch) :=
          loadMembership_save (h.clean u hu).1
        by_cases hnil : u.members = []
        · rw [if_pos hnil] at hload
          simpa [hload] using hstart
        · rw [if_neg hnil] at hload
          have hprev : u.prevMembers = [] := by
            obtain rfl | hu := mem_cons.mp hu
            · rfl
            · simp only [Hosts.Careful, hfile, Option.bind_some, hload] at hcareful
              exact hcareful u hu rfl
          refine ⟨u, hu, ?_⟩
          simp [hload, Topology.fromMembers, Topology.build, hprev]
  · intro text htext
    split_ifs at htext
    · exact (h.host node).file text htext
    · simp at htext

theorem Hosts.Coherent.step (hcareful : hs.Careful e) : (hs.step e).Coherent base := by
  obtain ⟨node, e⟩ := e
  cases e with
  | add id addr => exact h.addMember hcareful
  | remove id => exact h.removeMember
  | proceed => exact h.proceed hcareful
  | fail => exact h.set { h.host node with job := by simp }
  | deliver u =>
    simp only [Hosts.step]
    split_ifs with hu
    · refine h.set { h.host node with topo := ?_ }
      exact setMembership_known (h.host node).topo (mem_cons_of_mem _ (h.sent u hu))
    · exact h
  | persist =>
    refine h.set { h.host node with file := ?_ }
    intro text htext
    obtain rfl := Option.mem_some.mp htext
    obtain ⟨u, hu, heq⟩ := (h.host node).topo
    exact ⟨u, hu, by rw [heq]; rfl⟩
  | restart readable => exact h.restart hcareful

theorem Hosts.Coherent.agree : hs.Agree := by
  intro m n hepoch
  obtain ⟨u, hu, hm⟩ := (h.host m).topo
  obtain ⟨v, hv, hn⟩ := (h.host n).topo
  rw [hm, hn] at hepoch ⊢
  rw [h.unique u hu v hv hepoch]
  exact ⟨rfl, rfl⟩

end

-- Nodes configured with one list agree on every epoch in every careful run.
theorem agree_run (cfg : NodeId → List Member) (base : List Member) (hcfg : ∀ n, cfg n = base)
    (hclean : ∀ m ∈ base, cleanMember m = true) (run : List (NodeId × MembershipEvent))
    (h : Along Hosts.step Hosts.Careful (Hosts.start cfg) run) :
    (run.foldl Hosts.step (Hosts.start cfg)).Agree := by
  have hstart : (Hosts.start cfg).Coherent base := by
    refine ⟨hcfg, ?_, by simp [Hosts.start], ?_, ?_⟩
    · intro n
      refine ⟨⟨⟨0, base, []⟩, mem_cons_self, ?_⟩, by simp [Hosts.start], by simp [Hosts.start]⟩
      simp [Hosts.start, hcfg n, Topology.fromMembers]
    · intro u hu v hv _
      simp only [Hosts.start, issued, mem_singleton] at hu hv
      rw [hu, hv]
    · intro u hu
      simp only [Hosts.start, issued, mem_singleton] at hu
      rw [hu]
      exact ⟨hclean, by simp [Clean]⟩
  exact (Along.invariant (fun _ _ hs hgood => Hosts.Coherent.step hs hgood) h hstart).agree

end Agreement

section Scenarios

def twoSeeds : List Member := [(⟨"a"⟩, "h1"), (⟨"b"⟩, "h2")]

def twoJoins : List (NodeId × MembershipEvent) :=
  [(⟨"a"⟩, .add ⟨"c"⟩ "h3"), (⟨"b"⟩, .add ⟨"d"⟩ "h4"), (⟨"a"⟩, .proceed), (⟨"b"⟩, .proceed),
    (⟨"a"⟩, .proceed), (⟨"b"⟩, .proceed)]

def joinThenLeave : List (NodeId × MembershipEvent) :=
  [(⟨"a"⟩, .add ⟨"c"⟩ "h3"), (⟨"a"⟩, .proceed), (⟨"a"⟩, .proceed),
    (⟨"b"⟩, .deliver ⟨1, twoSeeds ++ [(⟨"c"⟩, "h3")], twoSeeds⟩), (⟨"a"⟩, .proceed), (⟨"a"⟩, .proceed),
    (⟨"a"⟩, .proceed), (⟨"c"⟩, .deliver ⟨2, twoSeeds ++ [(⟨"c"⟩, "h3")], []⟩), (⟨"c"⟩, .persist),
    (⟨"c"⟩, .restart true), (⟨"c"⟩, .remove ⟨"b"⟩), (⟨"c"⟩, .proceed), (⟨"c"⟩, .proceed), (⟨"c"⟩, .proceed)]

theorem agree_joinThenLeave : (joinThenLeave.foldl Hosts.step (Hosts.start (fun _ => twoSeeds))).Agree ∧
      ((joinThenLeave.foldl Hosts.step (Hosts.start (fun _ => twoSeeds))).host ⟨"c"⟩).topo =
        ⟨3, [(⟨"a"⟩, "h1"), (⟨"c"⟩, "h3")], []⟩ :=
  ⟨agree_run (fun _ => twoSeeds) twoSeeds (fun _ => rfl) (by decide) joinThenLeave (by decide),
    by decide⟩

theorem two_joins_disagree : ¬(twoJoins.foldl Hosts.step (Hosts.start (fun _ => twoSeeds))).Agree := by
  intro h
  obtain ⟨hmembers, -⟩ := h ⟨"a"⟩ ⟨"b"⟩ (by decide)
  exact absurd hmembers (by decide)

end Scenarios

end Skaidb.Cluster
