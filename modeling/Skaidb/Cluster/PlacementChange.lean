import Skaidb.Cluster.Fleet

namespace Skaidb.Cluster

open Skaidb.Base Skaidb.Schema Skaidb.Storage

section Reconcile

variable (owners : List NodeId) (node : NodeId) (c : Copies) (peer : NodeId)

def pulled : Copies :=
  match c.highest peer with
  | some theirs =>
    if node ∈ owners ∧ (c.highest node).all (fun mine => mine.1 < theirs.1) then c.apply node theirs else c
  | none => c

-- What anti-entropy with one peer does to a row: each side that owns it under the current
-- placement takes the other's version if that is newer.
def reconcile : Copies :=
  match c.highest node with
  | some mine =>
    if peer ∈ owners ∧ (c.highest peer).all (fun theirs => theirs.1 < mine.1) then
      (pulled owners node c peer).apply peer mine
    else pulled owners node c peer
  | none => pulled owners node c peer

theorem pulled_grows : c.Grows (pulled owners node c peer) := by
  unfold pulled
  split
  · split_ifs
    · exact c.grows_apply node _
    · exact Copies.Grows.refl c
  · exact Copies.Grows.refl c

theorem pulled_grows_reconcile : (pulled owners node c peer).Grows (reconcile owners node c peer) := by
  unfold reconcile
  split
  · split_ifs
    · exact Copies.grows_apply _ peer _
    · exact Copies.Grows.refl _
  · exact Copies.Grows.refl _

theorem reconcile_grows : c.Grows (reconcile owners node c peer) :=
  (pulled_grows owners node c peer).trans (pulled_grows_reconcile owners node c peer)

variable {owners node c peer}

theorem Copies.highest_mem (h : c.highest node = some u) : u ∈ c.applied node := by
  have hall : ∀ vs : List Version, vs.foldr (fun v best => pick (some v) best) none = some u → u ∈ vs := by
    intro vs
    induction vs with
    | nil => exact fun h => nomatch h
    | cons v vs ih =>
      intro h
      obtain hv | hbest := pick_eq_or (some v) (vs.foldr (fun v best => pick (some v) best) none)
      · exact List.mem_cons.mpr (.inl (Option.some.inj (h.symm.trans hv)))
      · exact List.mem_cons_of_mem v (ih (hbest.symm.trans h))
  exact hall _ h

theorem reconcile_pulls (hn : node ∈ owners) (h : c.reaches v peer = true) :
    (reconcile owners node c peer).reaches v node = true := by
  refine (pulled_grows_reconcile owners node c peer).reaches ?_
  obtain ⟨theirs, hpeer, hle⟩ := Copies.highest_of_reaches h
  simp only [pulled, hpeer, hn, true_and]
  split_ifs with hnew
  · exact Copies.reaches_trans hle (Copies.reaches_of_mem Copies.mem_apply)
  · obtain ⟨mine, hmine, hnot⟩ : ∃ mine, c.highest node = some mine ∧ ¬mine.1 < theirs.1 := by
      simpa [Option.all_eq_false] using hnew
    exact Copies.reaches_trans (hle.trans (not_lt.mp hnot)) (Copies.reaches_of_mem (Copies.highest_mem hmine))

theorem foldl_reconcile_grows (owners : List NodeId) (n : NodeId) (peers : List NodeId) (c : Copies) :
    c.Grows (peers.foldl (reconcile owners n) c) := by
  induction peers generalizing c with
  | nil => exact Copies.Grows.refl c
  | cons peer peers ih => exact (reconcile_grows owners n c peer).trans (ih _)

theorem foldl_reconcile_pulls {owners peers : List NodeId} (hn : n ∈ owners) (hpeer : peer ∈ peers)
    (h : c.reaches v peer = true) : (peers.foldl (reconcile owners n) c).reaches v n = true := by
  induction peers generalizing c with
  | nil => cases hpeer
  | cons first peers ih =>
    obtain rfl | hpeer := List.mem_cons.mp hpeer
    · exact (foldl_reconcile_grows owners n peers _).reaches (reconcile_pulls hn h)
    · exact ih hpeer ((reconcile_grows owners n c first).reaches h)

end Reconcile

abbrev Alter := String × List (String × String)

-- The nodes, the statements that clients and drivers have issued, and each node's completed
-- repair passes and baselines. `caught` notes the owners of the row whose passes since the
-- last write of it reached all its replicas, or one of those that had.
structure Placing where
  fleet : Fleet
  issued : List Alter
  caught : List NodeId
  passes : NodeId → Nat
  baselines : NodeId → OrdMap String (List (NodeId × Nat))

inductive PlacementEvent where
  | alter (stmt : Alter)
  | execute (n : NodeId) (stmt : Alter)
  | repair (n : NodeId) (reached : List NodeId) (ok : Bool)
  | drive (n : NodeId) (answering : List NodeId)
  | write (n : NodeId) (own : Node) (v : Version) (env : WriteEnv)
  | land (writes : List (NodeId × Version))

namespace Placing

variable (table : String) (key : Bytes)

def executed (w : Fleet) (n : NodeId) (stmt : Alter) : Fleet :=
  let catalog := match (w.view n).catalog.tables.get? stmt.1 with
    | some d => (setTableOptions (w.view n).catalog stmt.1 d stmt.2).1
    | none => (w.view n).catalog
  { w with
    view := fun m => if m = n then { w.view n with catalog := catalog } else w.view m
    named := by
      intro m
      split_ifs with hm
      · rw [hm]
        exact w.named n
      · exact w.named m }

def tablesInPlacementTransition (v : View) : List String :=
  (v.catalog.tables.entries.filter (fun t => t.2.prevPlacement.isSome)).map Prod.fst

def elected (v : View) (t : String) : Bool :=
  let union := v.effectiveReplicas t []
  v.id ∈ union && union.all (fun m => v.id.name ≤ m.name)

variable (s : Placing)

-- The driver's turn on one table: the first turn takes the baseline, and a turn that finds
-- every member two passes past it closes the transition.
def driveTable (n : NodeId) (answering : List NodeId) (t : String) : Placing :=
  let v := s.fleet.view n
  if !elected v t || !v.peers.all (fun p => p ∈ answering) then s
  else
    let seqs := (n :: v.peers).map (fun p => (p, s.passes p))
    let baseline := ((s.baselines n).get? t).getD seqs
    let converged := seqs.all (fun now =>
      (baseline.find? (fun base => base.1 = now.1)).any (fun base => base.2 + 2 ≤ now.2))
    { s with
      baselines := Function.update s.baselines n ((s.baselines n).insert t baseline)
      issued := if converged then (t, [("placement_finalized", "true")]) :: s.issued else s.issued }

def drive (n : NodeId) (answering : List NodeId) : Placing :=
  let pending := tablesInPlacementTransition (s.fleet.view n)
  let kept := (s.baselines n).filter (fun b => b.1 ∈ pending)
  pending.foldl (fun s t => s.driveTable n answering t)
    { s with baselines := Function.update s.baselines n kept }

def owners (n : NodeId) : List NodeId :=
  (s.fleet.view n).placedReplicas ((s.fleet.view n).tablePlacement table) (placement table key)

def catches (n : NodeId) (peers : List NodeId) : Bool :=
  n ∈ s.fleet.live && n ∈ s.owners table key n &&
    ((s.fleet.replicas table key n).all (fun r => r = n || r ∈ peers) || peers.any (fun p => p ∈ s.caught))

-- A pass goes over the peers that answer; it counts whether or not it reached all of them.
def repair (n : NodeId) (reached : List NodeId) (ok : Bool) : Placing :=
  let peers := (s.fleet.view n).peers.filter (fun p => p ∈ reached)
  { s with
    fleet := { s.fleet with copies := peers.foldl (reconcile (s.owners table key n) n) s.fleet.copies }
    caught := if s.catches table key n peers then n :: s.caught else s.caught
    passes := if ok then Function.update s.passes n (s.passes n + 1) else s.passes }

def step : PlacementEvent → Placing
  | .alter stmt => { s with issued := stmt :: s.issued }
  | .execute n stmt => if stmt ∈ s.issued then { s with fleet := executed s.fleet n stmt } else s
  | .repair n reached ok => s.repair table key n reached ok
  | .drive n answering => s.drive n answering
  | .write n own v env => { s with fleet := s.fleet.write table key n own v env, caught := [] }
  | .land writes => { s with fleet := s.fleet.land writes }

-- A node's replica set of the row changes only in its order, or to nodes that have all caught
-- up by their passes, or so little that the majorities of old and new outnumber both together
-- while a majority of the old ones has what was acknowledged.
def ChangeSafe (w : Fleet) (caught before after : List NodeId) : Prop :=
  after.Perm before ∨
    (∀ r ∈ after, r ∈ caught) ∨
    ((before : Multiset NodeId) ∪ (after : Multiset NodeId)).card < majority before.length + majority after.length ∧
      ∀ v ∈ w.acked, Quorate before (w.copies.reaches v)

instance (w : Fleet) (caught before after : List NodeId) : Decidable (ChangeSafe w caught before after) :=
  inferInstanceAs (Decidable (_ ∨ _ ∨ _ ∧ ∀ v ∈ w.acked, majority before.length ≤ _))

-- Definitions change as above, and a write goes through a node whose replica set is not far
-- from that of any other in service.
def Guarded : PlacementEvent → Prop
  | .execute n stmt =>
    n ∈ s.fleet.live →
      ChangeSafe s.fleet s.caught (s.fleet.replicas table key n) ((executed s.fleet n stmt).replicas table key n)
  | .write n _ _ _ => ∀ m ∈ s.fleet.live,
      ((s.fleet.replicas table key n : Multiset NodeId) ∪ (s.fleet.replicas table key m : Multiset NodeId)).card <
        majority (s.fleet.replicas table key n).length + majority (s.fleet.replicas table key m).length
  | _ => True

instance (s : Placing) (e : PlacementEvent) : Decidable (s.Guarded table key e) :=
  match e with
  | .execute _ _ => inferInstanceAs (Decidable (_ → _))
  | .write _ _ _ _ => inferInstanceAs (Decidable (∀ m ∈ s.fleet.live, _))
  | .alter _ | .repair _ _ _ | .drive _ _ | .land _ => isTrue trivial

section Runs

variable {table : String} {key : Bytes} {s : Placing}

-- What was acknowledged is out of the way of no read, and the nodes that caught up have it.
structure Inv (table : String) (key : Bytes) (s : Placing) : Prop where
  covered : s.fleet.Covered table key
  caught : ∀ n ∈ s.caught, ∀ v ∈ s.fleet.acked, s.fleet.copies.reaches v n = true

theorem ChangeSafe.covers (h : ChangeSafe s.fleet s.caught before after) (hs : s.Inv table key)
    (hv : v ∈ s.fleet.acked) (hcovers : Covers before (s.fleet.copies.reaches v)) :
    Covers after (s.fleet.copies.reaches v) := by
  rcases h with hperm | hall | ⟨hfew, hmajority⟩
  · exact hcovers.perm hperm
  · exact covers_of_all fun r hr => hs.caught r (hall r hr) v hv
  · exact (hmajority v hv).covers_other hfew

theorem mem_replicas_of_owner (h : n ∈ s.owners table key n) : n ∈ s.fleet.replicas table key n := by
  unfold Fleet.replicas View.effectiveReplicas
  dsimp only
  split
  · exact h
  · exact mem_union.mpr (.inl h)

-- Some replica has every acknowledged version, so a pass that reaches all of them brings it.
theorem Inv.repair (h : s.Inv table key) (n : NodeId) (reached : List NodeId) (ok : Bool) :
    (s.repair table key n reached ok).Inv table key := by
  have hgrows := foldl_reconcile_grows (s.owners table key n) n
    ((s.fleet.view n).peers.filter (fun p => p ∈ reached)) s.fleet.copies
  refine ⟨h.covered.grow hgrows, fun m hm v hv => ?_⟩
  change v ∈ s.fleet.acked at hv
  simp only [Placing.repair] at hm ⊢
  generalize (s.fleet.view n).peers.filter (fun p => p ∈ reached) = peers at hm hgrows ⊢
  have hold : ∀ r ∈ s.caught, s.fleet.copies.reaches v r = true := fun r hr => h.caught r hr v hv
  by_cases hcatches : s.catches table key n peers = true
  · rw [if_pos hcatches] at hm
    obtain rfl | hm := List.mem_cons.mp hm
    · simp only [catches, Bool.and_eq_true, Bool.or_eq_true, decide_eq_true_eq, List.all_eq_true,
        List.any_eq_true] at hcatches
      obtain ⟨⟨hlive, howner⟩, hall | ⟨peer, hpeer, hcaught⟩⟩ := hcatches
      · obtain ⟨r, hr, hheld⟩ := (h.covered v hv m hlive).exists_mem (List.Subperm.refl _)
          (majority_le_length (List.ne_nil_of_mem (mem_replicas_of_owner howner)))
        obtain rfl | hpeer := hall r hr
        · exact hgrows.reaches hheld
        · exact foldl_reconcile_pulls howner hpeer hheld
      · exact foldl_reconcile_pulls howner hpeer (hold peer hcaught)
    · exact hgrows.reaches (hold m hm)
  · rw [if_neg hcatches] at hm
    exact hgrows.reaches (hold m hm)

theorem drive_frame (s : Placing) (n : NodeId) (answering : List NodeId) :
    ∃ issued baselines, s.drive n answering = { s with issued := issued, baselines := baselines } := by
  unfold drive
  have hall : ∀ (ts : List String) (s : Placing), ∃ issued baselines,
      ts.foldl (fun s t => s.driveTable n answering t) s = { s with issued := issued, baselines := baselines } := by
    intro ts
    induction ts with
    | nil => exact fun s => ⟨s.issued, s.baselines, rfl⟩
    | cons t ts ih =>
      intro s
      obtain ⟨issued, baselines, hrest⟩ := ih (s.driveTable n answering t)
      refine ⟨issued, baselines, hrest.trans ?_⟩
      unfold driveTable
      dsimp only
      split_ifs <;> rfl
  exact hall _ _

-- The row is not written, and a pass of a new owner that counts lets it catch up.
def Counted (table : String) (key : Bytes) (after : List NodeId) (s : Placing) : PlacementEvent → Prop
  | .repair n reached ok => ok = true → n ∈ after →
      s.catches table key n ((s.fleet.view n).peers.filter (fun p => p ∈ reached)) = true
  | .write _ _ _ _ => False
  | _ => True

theorem counted_step {start : NodeId → Nat} (h : ∀ m ∈ after, start m < s.passes m → m ∈ s.caught)
    {e : PlacementEvent} (he : s.Counted table key after e) :
    ∀ m ∈ after, start m < (s.step table key e).passes m → m ∈ (s.step table key e).caught := by
  cases e with
  | alter stmt => exact h
  | land writes => exact h
  | write n own v env => exact he.elim
  | execute n stmt =>
    unfold step
    dsimp only
    split_ifs <;> exact h
  | drive n answering =>
    obtain ⟨issued, baselines, hdrive⟩ := drive_frame s n answering
    rw [step, hdrive]
    exact h
  | repair n reached ok =>
    intro m hafter hm
    simp only [step, repair] at hm ⊢
    by_cases hmn : m = n ∧ ok = true
    · rw [if_pos (he hmn.2 (hmn.1 ▸ hafter)), hmn.1]
      exact List.mem_cons_self
    · have hbefore : m ∈ s.caught := by
        refine h m hafter ?_
        cases ok with
        | false => exact hm
        | true => simpa [Function.update_of_ne (fun heq => hmn ⟨heq, rfl⟩)] using hm
      split_ifs
      · exact List.mem_cons_of_mem n hbefore
      · exact hbefore

-- When the row is not written from the baseline on, and the passes of the new owners that
-- count let them catch up, they all have by the time a driver closes the transition.
theorem caught_of_closing {start : Placing} {events : List PlacementEvent} {after : List NodeId} {n : NodeId}
    (hrun : Along (step table key) (Counted table key after) start events)
    (hs : events.foldl (step table key) start = s) (hafter : after ⊆ n :: (s.fleet.view n).peers)
    (hbase : (s.baselines n).get? t = some ((n :: (s.fleet.view n).peers).map (fun p => (p, start.passes p))))
    (hclosed : (s.driveTable n answering t).issued ≠ s.issued) : ∀ m ∈ after, m ∈ s.caught := by
  have hcaught : ∀ m ∈ after, start.passes m < s.passes m → m ∈ s.caught := by
    rw [← hs]
    exact hrun.invariant (fun _ _ h he => counted_step h he) fun m _ hm => absurd hm (lt_irrefl _)
  intro m hm
  unfold driveTable at hclosed
  dsimp only at hclosed
  split_ifs at hclosed with hleads hconverged
  · exact absurd rfl hclosed
  · have hall := List.all_eq_true.mp hconverged (m, s.passes m) (List.mem_map_of_mem (hafter hm))
    rw [hbase, Option.getD_some, Option.any_eq_true] at hall
    obtain ⟨base, hfind, hpast⟩ := hall
    obtain ⟨p, -, rfl⟩ := List.mem_map.mp (List.mem_of_find?_eq_some hfind)
    obtain rfl : p = m := by simpa using List.find?_some hfind
    have hpast : start.passes p + 2 ≤ s.passes p := by simpa using hpast
    exact hcaught p hm (by omega)
  · exact absurd rfl hclosed

theorem inv_step (h : s.Inv table key) {e : PlacementEvent} (hguard : s.Guarded table key e) :
    (s.step table key e).Inv table key := by
  cases e with
  | alter stmt => exact ⟨h.covered, h.caught⟩
  | land writes =>
    exact ⟨h.covered.land writes, fun n hn v hv => (s.fleet.copies.grows_land writes).reaches (h.caught n hn v hv)⟩
  | repair n reached ok => exact h.repair n reached ok
  | drive n answering =>
    obtain ⟨issued, baselines, hdrive⟩ := drive_frame s n answering
    rw [step, hdrive]
    exact ⟨h.covered, h.caught⟩
  | write n own v env => exact ⟨h.covered.write_of (fun m hm _ hq => hq.covers_other (hguard m hm)), nofun⟩
  | execute n stmt =>
    unfold step
    dsimp only
    split_ifs
    · refine ⟨fun v hv m hm => ?_, h.caught⟩
      have hcovers := h.covered v hv m hm
      by_cases hmn : m = n
      · subst hmn
        exact (hguard hm).covers h hv hcovers
      · have hview : (executed s.fleet n stmt).view m = s.fleet.view m := if_neg hmn
        show Covers (View.effectiveReplicas ((executed s.fleet n stmt).view m) table key) _
        rw [hview]
        exact hcovers
    · exact h

end Runs

section Scenarios

def withTable (names : List String) (replication : Option Nat) (pins : List String) : Placing :=
  { fleet :=
      { view := fun n => ⟨n, .fromMembers (names.map (fun m => (⟨m⟩, m))) 1, 1, 3,
          { Catalog.default with tables := OrdMap.empty.insert "t" ⟨[], none, false, replication, pins, false, none⟩ }⟩
        named := fun _ => rfl
        live := names.map NodeId.mk
        copies := ⟨fun _ => []⟩
        acked := [] }
    issued := []
    caught := []
    passes := fun _ => 0
    baselines := fun _ => OrdMap.empty }

def everywhere (names : List String) (stmt : Alter) : List PlacementEvent :=
  names.map (fun n => .execute ⟨n⟩ stmt)

def passEverywhere (names : List String) : List PlacementEvent :=
  names.map (fun n => .repair ⟨n⟩ (names.map NodeId.mk) true)

def fourNames : List String := ["a", "b", "c", "d"]

def swapPin : Alter := ("t", [("nodes", "b,c,d")])

def closing : Alter := ("t", [("placement_finalized", "true")])

-- One pin of three is exchanged after a write that one of them missed; the driver closes the
-- transition after two passes of every member.
def pinSwapped : List PlacementEvent :=
  [.write ⟨"a"⟩ (quorumNode "a") (⟨5, 0⟩, .put [7]) firstPeerFails, .alter swapPin] ++
    everywhere fourNames swapPin ++ [.drive ⟨"a"⟩ (fourNames.map NodeId.mk)] ++
    passEverywhere fourNames ++ passEverywhere fourNames ++ [.drive ⟨"a"⟩ (fourNames.map NodeId.mk)] ++
    everywhere fourNames closing

-- A table with one replica goes to three: the write is on one node, and a majority of the
-- union does without it.
def widened : List PlacementEvent :=
  [.write ⟨"c"⟩ (quorumNode "c") (⟨5, 0⟩, .put [7]) firstPeerFails, .alter ("t", [("replication", "3")])] ++
    everywhere ["a", "b", "c"] ("t", [("replication", "3")])

end Scenarios

end Placing

end Skaidb.Cluster
