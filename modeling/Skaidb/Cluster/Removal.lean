import Skaidb.Base.Grouping
import Skaidb.Cluster.Fleet
import Skaidb.Cluster.Reclaim

namespace Skaidb.Cluster

open Skaidb.Base Skaidb.Exec Skaidb.Schema Skaidb.Storage List OrdMap View Skaidb.Cluster.Ring Copies

section Drain

namespace View

variable (v : View) (newMembers : List Member) (table : String)

def newRing : Ring := Ring.ofMembers v.vnodesPerNode (newMembers.map Prod.fst)

-- The new owners of a row; a node that is a replica already is taken to hold it.
def drainTargets (p : TablePlacement) (key : Bytes) : List NodeId :=
  let pkey := placement table key
  ((v.newRing newMembers).replicasFor pkey (v.tableRf p)).filter
    (fun r => r ∉ v.placedReplicas p pkey ∧ newMembers.any (fun m => m.1 = r))

def pageSends (p : TablePlacement) (batch : Nat) (page : List (Bytes × Version)) :
    List (NodeId × List (Bytes × Version)) :=
  let perDest := OrdMap.gather
    (page.flatMap (fun row => (v.drainTargets newMembers table p row.1).map (fun r => (r.name, [row]))))
  perDest.entries.flatMap (fun d => (chunks (max batch 1) d.2).map (fun chunk => (⟨d.1⟩, chunk)))

-- What `drain_to` sends of one table, in order. A pinned table has nothing to drain.
def drainSends (batch : Nat) (rows : OrdMap Bytes Version) : List (NodeId × List (Bytes × Version)) :=
  match v.tablePlacement table with
  | .pinned _ => []
  | p => (rows.pages migratePageRows).flatMap (v.pageSends newMembers table p batch)

variable {v newMembers table}

theorem mem_pageSends {p : TablePlacement} {batch : Nat} {page : List (Bytes × Version)} :
    (∃ s ∈ v.pageSends newMembers table p batch page, s.1 = r ∧ row ∈ s.2) ↔
      row ∈ page ∧ r ∈ v.drainTargets newMembers table p row.1 := by
  unfold pageSends
  simp only [mem_flatMap, mem_map]
  constructor
  · rintro ⟨s, ⟨⟨name, rows⟩, hd, chunk, hchunk, rfl⟩, rfl, hrow⟩
    have hin : row ∈ rows := by
      rw [← flatten_chunks (by omega : 0 < max batch 1) rows]
      exact mem_flatten.mpr ⟨chunk, hchunk, hrow⟩
    obtain ⟨-, rfl⟩ := mem_gather.mp hd
    obtain ⟨piece, hpiece, hname, hmem⟩ := mem_under.mp hin
    obtain ⟨row', hrow', hmap⟩ := mem_flatMap.mp hpiece
    obtain ⟨r, hr, rfl⟩ := mem_map.mp hmap
    obtain rfl := mem_singleton.mp hmem
    refine ⟨hrow', ?_⟩
    subst hname
    exact hr
  · rintro ⟨hrow, hr⟩
    have hpiece : (r.name, [row]) ∈ page.flatMap (fun row =>
        (v.drainTargets newMembers table p row.1).map (fun r => (r.name, [row]))) :=
      mem_flatMap.mpr ⟨row, hrow, mem_map.mpr ⟨r, hr, rfl⟩⟩
    have hunder : row ∈ under (page.flatMap (fun row =>
        (v.drainTargets newMembers table p row.1).map (fun r => (r.name, [row])))) r.name :=
      mem_under.mpr ⟨_, hpiece, rfl, by simp⟩
    rw [← flatten_chunks (by omega : 0 < max batch 1) (under _ _)] at hunder
    obtain ⟨chunk, hchunk, hin⟩ := mem_flatten.mp hunder
    refine ⟨(r, chunk), ⟨(r.name, _), mem_gather.mpr ⟨mem_map_of_mem hpiece, rfl⟩, chunk, hchunk, rfl⟩,
      rfl, hin⟩

theorem mem_drainSends {batch : Nat} {rows : OrdMap Bytes Version} {r : NodeId} {key : Bytes}
    (hring : ∀ pins, v.tablePlacement table ≠ .pinned pins) :
    (∃ s ∈ v.drainSends newMembers table batch rows, s.1 = r ∧ (key, u) ∈ s.2) ↔
      rows.get? key = some u ∧ r ∈ v.drainTargets newMembers table (v.tablePlacement table) key := by
  have hsends : v.drainSends newMembers table batch rows =
      (rows.pages migratePageRows).flatMap (v.pageSends newMembers table (v.tablePlacement table) batch) := by
    unfold drainSends
    split
    case h_1 pins hpins => exact absurd hpins (hring pins)
    case h_2 => rfl
  rw [hsends, OrdMap.get?_eq_some_iff, ← flatten_pages (by decide : 0 < migratePageRows)]
  constructor
  · rintro ⟨s, hs, hsr, hrow⟩
    obtain ⟨page, hpage, hs⟩ := mem_flatMap.mp hs
    obtain ⟨hin, htarget⟩ := mem_pageSends.mp ⟨s, hs, hsr, hrow⟩
    exact ⟨mem_flatten.mpr ⟨page, hpage, hin⟩, htarget⟩
  · rintro ⟨hin, htarget⟩
    obtain ⟨page, hpage, hin⟩ := mem_flatten.mp hin
    obtain ⟨s, hs, hsr, hrow⟩ := mem_pageSends.mpr ⟨hin, htarget⟩
    exact ⟨s, mem_flatMap.mpr ⟨page, hpage, hs⟩, hsr, hrow⟩

end View

end Drain

section Sends

variable (key : Bytes)

def sendBatch (c : Copies) (dest : NodeId) (rows : List (Bytes × Version)) (call : WriteCall) : Copies × Bool :=
  match OrdMap.lookup rows key with
  | some v => sendWrite c dest v call
  | none => (c.land call.landed, call.answer = .ack)

-- A batch is tried twice. After that its rows are hinted on the leaving node, and the drain
-- goes on.
def sendTwice (c : Copies) (send : NodeId × List (Bytes × Version)) (calls : WriteCall × WriteCall) : Copies :=
  let first := sendBatch key c send.1 send.2 calls.1
  if first.2 then first.1 else (sendBatch key first.1 send.1 send.2 calls.2).1

def runSends (calls : Nat → WriteCall × WriteCall) (c : Copies)
    (sends : List ((NodeId × List (Bytes × Version)) × Nat)) : Copies :=
  sends.foldl (fun c s => sendTwice key c s.1 (calls s.2)) c

def Sent (calls : WriteCall × WriteCall) : Prop := calls.1.answer = .ack ∨ calls.2.answer = .ack
deriving Decidable

variable {key : Bytes}

theorem sendBatch_spec (c : Copies) (dest : NodeId) (rows : List (Bytes × Version)) (call : WriteCall) :
    c.Grows (sendBatch key c dest rows call).1 ∧
      ((sendBatch key c dest rows call).2 = true ↔ call.answer = .ack) ∧
      (call.answer = .ack → ∀ v, lookup rows key = some v →
        v ∈ (sendBatch key c dest rows call).1.applied dest) := by
  unfold sendBatch
  cases hrow : OrdMap.lookup rows key with
  | none => exact ⟨c.grows_land _, by simp, by simp⟩
  | some v =>
    obtain ⟨hgrows, hack⟩ := sendWrite_spec
    have hanswer : (sendWrite c dest v call).2 = true ↔ call.answer = .ack := by
      unfold sendWrite
      split <;> simp_all
    refine ⟨hgrows, hanswer, ?_⟩
    rintro hok u hu
    cases hu
    exact hack (hanswer.mpr hok)

theorem sendTwice_spec (c : Copies) (send : NodeId × List (Bytes × Version)) (calls : WriteCall × WriteCall) :
    c.Grows (sendTwice key c send calls) ∧
      (Sent calls → ∀ v, lookup send.2 key = some v → v ∈ (sendTwice key c send calls).applied send.1) := by
  obtain ⟨hgrows, hanswer, hholds⟩ := @sendBatch_spec key c send.1 send.2 calls.1
  obtain ⟨hgrows', hanswer', hholds'⟩ :=
    @sendBatch_spec key (sendBatch key c send.1 send.2 calls.1).1 send.1 send.2 calls.2
  unfold sendTwice
  dsimp only
  split
  case isTrue hfirst => exact ⟨hgrows, fun _ v hv => hholds (hanswer.mp hfirst) v hv⟩
  case isFalse hfirst =>
    refine ⟨hgrows.trans hgrows', ?_⟩
    rintro (hok | hok) v hv
    · exact absurd (hanswer.mpr hok) hfirst
    · exact hholds' hok v hv

theorem runSends_grows (calls : Nat → WriteCall × WriteCall) (c : Copies)
    (sends : List ((NodeId × List (Bytes × Version)) × Nat)) : c.Grows (runSends key calls c sends) := by
  induction sends generalizing c with
  | nil => exact Grows.refl c
  | cons s sends ih => exact (sendTwice_spec c s.1 (calls s.2)).1.trans (ih _)

theorem mem_runSends {sends : List ((NodeId × List (Bytes × Version)) × Nat)} (hs : s ∈ sends)
    (hsent : Sent (calls s.2)) (hv : lookup s.1.2 key = some v) :
    v ∈ (runSends key calls c sends).applied s.1.1 := by
  induction sends generalizing c with
  | nil => cases hs
  | cons t sends ih =>
    obtain rfl | hs := mem_cons.mp hs
    · have hhere := (sendTwice_spec c s.1 (calls s.2)).2 hsent v hv
      exact runSends_grows calls _ sends _ v hhere
    · exact ih hs

end Sends

def View.tablesPinning (v : View) (node : String) : List String :=
  (v.catalog.tables.entries.filter (fun t => node ∈ t.2.pinnedNodes ||
    t.2.prevPlacement.any (fun p => node ∈ p.pinnedNodes))).map Prod.fst

-- The answer to a `Drain` request; an error that the drain returns to the node itself has
-- its own kind.
inductive DrainReply where
  | ack
  | err (e : EngineError) (text : String)
  | unreachable

-- `others` are the other rows of the table on the leaving node, `calls` what happens to the
-- two tries of each send, `made` how far a drain came that fails, and `reached` the survivors
-- that get the update.
structure RemovalEnv where
  others : OrdMap Bytes Version
  batch : Nat
  calls : Nat → WriteCall × WriteCall
  made : Nat
  reply : DrainReply
  reached : List NodeId

namespace Fleet

variable (table : String) (key : Bytes) (w : Fleet)

def rowsAt (node : NodeId) (others : OrdMap Bytes Version) : OrdMap Bytes Version :=
  match w.copies.highest node with
  | some v => others.insert key v
  | none => others.erase key

section

variable (orchestrator leaving : NodeId) (env : RemovalEnv)

def survivors : List Member :=
  (w.view orchestrator).topo.members.filter (fun m => m.1 ≠ leaving)

def drain : List ((NodeId × List (Bytes × Version)) × Nat) :=
  ((w.view leaving).drainSends (w.survivors orchestrator leaving) table env.batch
    (w.rowsAt key leaving env.others)).zipIdx

def removeMember : Fleet × Except EngineError Unit :=
  let v := w.view orchestrator
  let id := leaving.name
  let pinning := v.tablesPinning id
  let names := ", ".intercalate pinning
  let newMembers := w.survivors orchestrator leaving
  let sends := w.drain table key orchestrator leaving env
  let partly : Fleet := { w with copies := runSends key env.calls w.copies (sends.take env.made) }
  if !v.topo.members.any (fun m => m.1 = leaving) then (w, .ok ())
  else if v.topo.members.length ≤ 1 then (w, .error (.cluster "cannot remove the last node in the cluster"))
  else if pinning ≠ [] then
    (w, .error (.cluster (s!"cannot remove {id}: pinned by table(s) {names}; re-pin first " ++
      "(ALTER TABLE ... SET (nodes = [...]))")))
  else if leaving ≠ orchestrator ∧ v.peerAddr leaving = none then
    (w, .error (.cluster s!"leaving node {id} not in topology"))
  else
    match env.reply with
    | .err e text => (partly, .error (if leaving = orchestrator then e else .cluster s!"drain failed: {text}"))
    | .unreachable =>
      (partly, .error (.cluster "leaving node unreachable; cannot drain its keyspace safely"))
    | .ack =>
      let drained : Fleet := { w with copies := runSends key env.calls w.copies sends }
      let reached := (if leaving ≠ orchestrator then [orchestrator] else []) ++
        (newMembers.map Prod.fst).filter (fun m => m ≠ orchestrator ∧ m ∈ env.reached)
      ({ drained.adopt ⟨v.topo.epoch + 1, newMembers, []⟩ reached with
          live := w.live.filter (fun n => n ≠ leaving) }, .ok ())

end

end Fleet

inductive RemovalEvent where
  | write (n : NodeId) (own : Node) (v : Version) (env : WriteEnv)
  | land (writes : List (NodeId × Version))
  | remove (orchestrator leaving : NodeId) (env : RemovalEnv)

namespace Fleet

variable (table : String) (key : Bytes)

def removalStep (w : Fleet) : RemovalEvent → Fleet
  | .write n own v env => w.write table key n own v env
  | .land writes => w.land writes
  | .remove orchestrator leaving env => (w.removeMember table key orchestrator leaving env).1

def newReplicas (w : Fleet) (orchestrator leaving : NodeId) : List NodeId :=
  ((w.view orchestrator).newRing (w.survivors orchestrator leaving)).replicasFor (placement table key)
    ((w.view orchestrator).tableRf ((w.view orchestrator).tablePlacement table))

-- The leaving node's row has a new owner and each send that carries it is acked, or the
-- new replicas without it are too few to answer a read.
def RowKept (w : Fleet) (orchestrator leaving : NodeId) (env : RemovalEnv) : Prop :=
  ∀ u ∈ w.copies.highest leaving, leaving ∈ w.replicas table key orchestrator →
    ((∃ r ∈ w.newReplicas table key orchestrator leaving, r ∉ w.replicas table key orchestrator) ∧
      ∀ s ∈ w.drain table key orchestrator leaving env, key ∈ s.1.2.map Prod.fst → Sent (env.calls s.2)) ∨
    Covers (w.newReplicas table key orchestrator leaving) (w.copies.reaches u)
deriving Decidable

-- Writes go where every node in service reads. A removal starts from a settled membership
-- that the leaving node shares, no two members have a token in common, and the row is kept.
def RemovalGuarded (w : Fleet) : RemovalEvent → Prop
  | .write n _ _ _ => ∀ m ∈ w.live, (w.replicas table key m).Perm (w.replicas table key n)
  | .land _ => True
  | .remove orchestrator leaving env =>
    orchestrator ∈ w.live ∧ (w.view orchestrator).topo.prev = [] ∧ (w.view leaving).topo.prev = [] ∧
      (w.view leaving).topo.members = (w.view orchestrator).topo.members ∧
      Ring.TokensApart (w.view orchestrator).vnodesPerNode ((w.view orchestrator).topo.members.map Prod.fst) ∧
      w.RowKept table key orchestrator leaving env

instance (w : Fleet) (e : RemovalEvent) : Decidable (w.RemovalGuarded table key e) :=
  match e with
  | .write n _ _ _ => inferInstanceAs (Decidable (∀ m ∈ w.live, (w.replicas table key m).Perm (w.replicas table key n)))
  | .land _ => isTrue trivial
  | .remove _ _ _ => inferInstanceAs (Decidable (_ ∧ _ ∧ _ ∧ _ ∧ _ ∧ _))

section Removed

variable {table : String} {key : Bytes} {w : Fleet} {vnodesPerNode replicationFactor : Nat} {p : TablePlacement}
  {orchestrator leaving : NodeId} {env : RemovalEnv}

theorem get?_rowsAt (key : Bytes) (others : OrdMap Bytes Version) (hu : w.copies.highest node = some u) :
    (w.rowsAt key node others).get? key = some u := by
  unfold rowsAt
  rw [hu]
  simp

theorem reaches_runSends (hu : w.copies.highest leaving = some u)
    (hring : ∀ pins, (w.view leaving).tablePlacement table ≠ .pinned pins)
    (htarget : r ∈ (w.view leaving).drainTargets (w.survivors orchestrator leaving) table
      ((w.view leaving).tablePlacement table) key)
    (hsent : ∀ s ∈ w.drain table key orchestrator leaving env, key ∈ s.1.2.map Prod.fst → Sent (env.calls s.2)) :
    (runSends key env.calls w.copies (w.drain table key orchestrator leaving env)).reaches u r = true := by
  have hrow := get?_rowsAt key env.others hu
  obtain ⟨s, hs, rfl, hmem⟩ := (mem_drainSends hring).mpr ⟨hrow, htarget⟩
  obtain ⟨i, hi⟩ : ∃ i, (s, i) ∈ w.drain table key orchestrator leaving env := by
    rw [← zipIdx_map_fst 0 ((w.view leaving).drainSends _ _ _ _)] at hs
    obtain ⟨⟨s', i⟩, hi, rfl⟩ := mem_map.mp hs
    exact ⟨i, hi⟩
  have hlookup : OrdMap.lookup s.2 key = some u := by
    have hsub : s.2 ⊆ (w.rowsAt key leaving env.others).entries := by
      rintro ⟨k, x⟩ hx
      exact (OrdMap.get?_eq_some_iff _).mp ((mem_drainSends hring).mp ⟨s, hs, rfl, hx⟩).1
    exact lookup_of_subset hsub hmem
  exact reaches_of_mem (mem_runSends hi (hsent _ hi (mem_map.mpr ⟨_, hmem, rfl⟩)) hlookup)

theorem map_survivors : (w.survivors orchestrator leaving).map Prod.fst =
    ((w.view orchestrator).topo.members.map Prod.fst).filter (fun n => n ≠ leaving) := by
  rw [survivors, filter_map]
  rfl

theorem removeMember_cases {w : Fleet} :
    (∃ c, w.copies.Grows c ∧ (w.removeMember table key orchestrator leaving env).1 = { w with copies := c }) ∨
      let w' := (w.removeMember table key orchestrator leaving env).1
      w'.copies = runSends key env.calls w.copies (w.drain table key orchestrator leaving env) ∧
        w'.acked = w.acked ∧ w'.live ⊆ w.live ∧ ∀ n, w'.view n = w.view n ∨
          ∃ epoch, w'.view n = { w.view n with topo := .build ⟨epoch, w.survivors orchestrator leaving, []⟩ } := by
  have hsame : ∃ c, w.copies.Grows c ∧ w = { w with copies := c } := ⟨_, Grows.refl _, rfl⟩
  unfold removeMember
  by_cases hmember : (!(w.view orchestrator).topo.members.any (fun m => m.1 = leaving)) = true
  · rw [if_pos hmember]
    exact .inl hsame
  by_cases hlast : (w.view orchestrator).topo.members.length ≤ 1
  · rw [if_neg hmember, if_pos hlast]
    exact .inl hsame
  by_cases hpinned : (w.view orchestrator).tablesPinning leaving.name ≠ []
  · rw [if_neg hmember, if_neg hlast, if_pos hpinned]
    exact .inl hsame
  rw [if_neg hmember, if_neg hlast, if_neg hpinned]
  by_cases haddr : leaving ≠ orchestrator ∧ (w.view orchestrator).peerAddr leaving = none
  · rw [if_pos haddr]
    exact .inl hsame
  rw [if_neg haddr]
  cases env.reply with
  | err e text | unreachable => exact .inl ⟨_, runSends_grows _ _ _, rfl⟩
  | ack =>
    refine .inr ⟨rfl, rfl, filter_subset_self _, fun n => ?_⟩
    exact view_adopt.imp id (fun hview => ⟨_, hview⟩)

variable (hal : ∀ n, Alike table vnodesPerNode replicationFactor p (w.view n)) (hring : ∀ pins, p ≠ .pinned pins)
  (hguard : w.RemovalGuarded table key (.remove orchestrator leaving env))

include hal hring

theorem newReplicas_eq {epoch : UInt64} :
    ({ w.view n with topo := .build ⟨epoch, w.survivors orchestrator leaving, []⟩ } : View).effectiveReplicas
      table key = w.newReplicas table key orchestrator leaving := by
  have hn := (hal n).withTopo (.build ⟨epoch, w.survivors orchestrator leaving, []⟩)
  have ho := hal orchestrator
  rw [effectiveReplicas_ring hn.placed hring rfl, newReplicas, newRing, ho.tablePlacement]
  show replicasFor (ofMembers (w.view n).vnodesPerNode _) _ ((w.view n).tableRf p) = _
  rw [(hal n).tableRf ho, (hal n).vnodes, ho.vnodes]
  rfl

include hguard

theorem mem_drainTargets (hnew : r ∈ w.newReplicas table key orchestrator leaving)
    (hold : r ∉ w.replicas table key orchestrator) :
    r ∈ (w.view leaving).drainTargets (w.survivors orchestrator leaving) table
      ((w.view leaving).tablePlacement table) key := by
  obtain ⟨-, hprev, hprev', hmembers, hapart, -⟩ := hguard
  have hl := hal leaving
  have ho := hal orchestrator
  have hrf := hl.tableRf ho
  have hsame : (w.view leaving).placedReplicas p (placement table key) = w.replicas table key orchestrator := by
    have heff := @View.effectiveReplicas_ring (w.view leaving) table key p hl.placed hring hprev'
    have hself : (w.view leaving).effectiveReplicas table key =
        (w.view leaving).placedReplicas p (placement table key) := by
      unfold effectiveReplicas
      rw [hl.placed]
    rw [← hself, heff, replicas, effectiveReplicas_ring ho.placed hring hprev, hmembers, hrf, hl.vnodes, ho.vnodes]
  unfold newReplicas at hnew
  rw [ho.tablePlacement] at hnew
  have hmember : (w.survivors orchestrator leaving).any (fun m => m.1 = r) = true := by
    have hkept : TokensApart (w.view orchestrator).vnodesPerNode
        ((w.survivors orchestrator leaving).map Prod.fst) := by
      rw [map_survivors]
      exact hapart.subset (filter_subset_self _)
    obtain ⟨hspread, hnodes⟩ := spread_ofMembers hkept
    have hin : r ∈ (ofMembers (w.view orchestrator).vnodesPerNode
        ((w.survivors orchestrator leaving).map Prod.fst)).order (placement table key) := by
      rw [replicasFor_eq] at hnew
      exact mem_of_mem_take hnew
    obtain ⟨m, hm, rfl⟩ := mem_map.mp ((hnodes r).mp ((hspread.order_perm _).mem_iff.mp hin))
    exact any_eq_true.mpr ⟨m, hm, by simp⟩
  rw [hl.tablePlacement]
  unfold drainTargets
  dsimp only
  rw [hsame]
  refine mem_filter.mpr ⟨?_, by simpa using ⟨hold, by simpa using hmember⟩⟩
  unfold newRing at hnew ⊢
  rw [hrf, hl.vnodes, ← ho.vnodes]
  exact hnew

theorem covers_newReplicas (hcovers : Covers (w.replicas table key orchestrator) (w.copies.reaches v)) :
    Covers (w.newReplicas table key orchestrator leaving)
      ((runSends key env.calls w.copies (w.drain table key orchestrator leaving env)).reaches v) := by
  obtain ⟨-, hprev, -, -, hapart, hkept⟩ := id hguard
  have ho := hal orchestrator
  have hgrows := @runSends_grows key env.calls w.copies (w.drain table key orchestrator leaving env)
  have hafter := hcovers.mono (fun _ _ => hgrows.reaches)
  have hold : w.replicas table key orchestrator = _ := effectiveReplicas_ring ho.placed hring hprev
  have hnodup : (w.replicas table key orchestrator).Nodup := by
    rw [hold]
    exact nodup_replicasFor _ _
  have hnew : w.newReplicas table key orchestrator leaving = _ :=
    (show w.newReplicas table key orchestrator leaving = replicasFor (ofMembers _ _) _ _ by
      rw [newReplicas, newRing, map_survivors, ho.tablePlacement]).trans
      (replicasFor_without hapart leaving (placement table key) ((w.view orchestrator).tableRf p))
  rw [← hold] at hnew
  by_cases hleaving : leaving ∈ w.replicas table key orchestrator
  · rw [if_pos hleaving] at hnew
    by_cases hheld : w.copies.reaches v leaving = true
    · obtain ⟨u, hu, hvu⟩ := highest_of_reaches hheld
      rcases hkept u hu hleaving with ⟨⟨r, hr, hnot⟩, hsent⟩ | hfew
      · -- the one new replica has been sent the row
        have hone : (((ofMembers (w.view orchestrator).vnodesPerNode
            ((w.view orchestrator).topo.members.map Prod.fst)).order (placement table key)).drop
              ((w.view orchestrator).tableRf p)).take 1 = [r] := by
          rw [hnew] at hr
          rcases mem_append.mp hr with hr | hr
          · exact absurd (mem_filter.mp hr).1 hnot
          · obtain ⟨s, hs⟩ := length_eq_one_iff.mp
              (le_antisymm (by rw [length_take]; omega) (length_pos_of_mem hr))
            rw [hs] at hr ⊢
            rw [mem_singleton.mp hr]
        have htarget := mem_drainTargets hal hring hguard hr hnot
        have hringAt : ∀ pins, (w.view leaving).tablePlacement table ≠ .pinned pins := by
          rw [(hal leaving).tablePlacement]
          exact hring
        have hreach := reaches_trans hvu (reaches_runSends hu hringAt htarget hsent)
        rw [hnew, hone]
        exact hafter.replace hnodup hleaving hreach
      · exact hfew.mono (fun _ _ h => hgrows.reaches (reaches_trans hvu h))
    · rw [hnew]
      refine Covers.mono ?_ (fun _ _ => hgrows.reaches)
      exact hcovers.without hnodup hleaving (by simpa using hheld) (by rw [length_take]; omega)
  · rw [if_neg hleaving] at hnew
    rw [hnew]
    exact hafter

omit hring

theorem Covered.removed (h : w.Covered table key) :
    (w.removeMember table key orchestrator leaving env).1.Covered table key := by
  obtain ⟨c, hgrows, heq⟩ | ⟨hcopies, hacked, hlive, hview⟩ := removeMember_cases
  · rw [heq]
    exact h.grow hgrows
  · intro v hv n hn
    rw [hacked] at hv
    have hcovers := h v hv orchestrator hguard.1
    rw [hcopies, replicas]
    obtain hview | ⟨epoch, hview⟩ := hview n
    · rw [hview]
      exact (h v hv n (hlive hn)).mono (fun _ _ => (runSends_grows _ _ _).reaches)
    · rw [hview]
      by_cases hpinned : ∃ pins, p = .pinned pins
      · -- the pins do not move with the membership
        obtain ⟨pins, rfl⟩ := hpinned
        have hperm := @View.effectiveReplicas_pinned (w.view orchestrator) table key pins (hal orchestrator).placed
        have hperm' := @View.effectiveReplicas_pinned
          { w.view n with topo := .build ⟨epoch, w.survivors orchestrator leaving, []⟩ } table key pins (hal n).placed
        exact (hcovers.mono (fun _ _ => (runSends_grows _ _ _).reaches)).perm (hperm'.trans hperm.symm)
      · have hring : ∀ pins, p ≠ .pinned pins := fun pins hp => hpinned ⟨pins, hp⟩
        have hcovers' := covers_newReplicas hal hring hguard hcovers
        rw [← newReplicas_eq hal hring] at hcovers'
        exact hcovers'

omit hguard

theorem alike_removalStep (e : RemovalEvent) (n : NodeId) :
    Alike table vnodesPerNode replicationFactor p ((w.removalStep table key e).view n) := by
  cases e with
  | write m own v env | land writes => exact hal n
  | remove orchestrator leaving env =>
    show Alike _ _ _ _ ((w.removeMember table key orchestrator leaving env).1.view n)
    obtain ⟨c, -, heq⟩ | ⟨-, -, -, hview⟩ := removeMember_cases
    · rw [heq]
      exact hal n
    · obtain hview | ⟨epoch, hview⟩ := hview n
      · rw [hview]
        exact hal n
      · rw [hview]
        exact (hal n).withTopo _

theorem Covered.removalStep (h : w.Covered table key) (hguard : w.RemovalGuarded table key e) :
    (w.removalStep table key e).Covered table key := by
  cases e with
  | write n own v env => exact h.write hguard
  | land writes => exact h.land writes
  | remove orchestrator leaving env => exact h.removed hal hguard

omit hal

-- Every acknowledged write is seen by every QUORUM read through the members that are left.
theorem seen_removals (table : String) (key : Bytes)
    (hal : ∀ n, Alike table vnodesPerNode replicationFactor p (w.view n)) (hfresh : w.acked = [])
    (events : List RemovalEvent)
    (hrun : Along (Fleet.removalStep table key) (Fleet.RemovalGuarded table key) w events) :
    (events.foldl (Fleet.removalStep table key) w).Seen table key := by
  have hstart : w.Covered table key := by
    intro v hv
    rw [hfresh] at hv
    cases hv
  have hend := hrun.invariant
    (fun w e (h : w.Covered table key ∧ ∀ n, Alike table vnodesPerNode replicationFactor p (w.view n)) hguard =>
      ⟨h.1.removalStep h.2 hguard, alike_removalStep h.2 e⟩) ⟨hstart, hal⟩
  exact hend.1.seen

end Removed

section Scenarios

def ofNames (names : List String) : Fleet :=
  { view := fun n => ⟨n, .fromMembers (names.map (fun m => (⟨m⟩, m))) 1, 1, 3, Catalog.default⟩
    named := fun _ => rfl
    live := names.map NodeId.mk
    copies := ⟨fun _ => []⟩
    acked := [] }

def writeAtA : RemovalEvent := .write ⟨"a"⟩ (quorumNode "a") (⟨5, 0⟩, .put [7]) firstPeerFails

def secondTryAcks : RemovalEnv :=
  { others := OrdMap.empty
    batch := 16
    calls := fun _ => (⟨[], .failed false⟩, ⟨[], .ack⟩)
    made := 0
    reply := .ack
    reached := [⟨"a"⟩, ⟨"b"⟩, ⟨"c"⟩, ⟨"d"⟩] }

def oneLeaves : List RemovalEvent := [writeAtA, .remove ⟨"c"⟩ ⟨"a"⟩ secondTryAcks]

theorem seen_oneLeaves : (oneLeaves.foldl (removalStep "t" [1]) (ofNames ["a", "b", "c", "d"])).Seen "t" [1] ∧
      (oneLeaves.foldl (removalStep "t" [1]) (ofNames ["a", "b", "c", "d"])).acked = [(⟨5, 0⟩, .put [7])] :=
  ⟨seen_removals "t" [1] (fun _ => ⟨rfl, rfl, rfl⟩) rfl oneLeaves (by decide),
    by decide⟩

-- Of three nodes both that hold the write leave in turn. The third counts as a replica that
-- holds the row already, so neither drain sends it anything.
theorem removals_lose_write : let w₁ := (ofNames ["a", "b", "c"]).removalStep "t" [1] writeAtA
    let w₂ := w₁.removeMember "t" [1] ⟨"b"⟩ ⟨"a"⟩ secondTryAcks
    let w₃ := w₂.1.removeMember "t" [1] ⟨"c"⟩ ⟨"b"⟩ secondTryAcks
    w₁.acked = [(⟨5, 0⟩, .put [7])] ∧ w₂.2 = .ok () ∧ w₃.2 = .ok () ∧
      w₁.drain "t" [1] ⟨"b"⟩ ⟨"a"⟩ secondTryAcks = [] ∧ w₂.1.drain "t" [1] ⟨"c"⟩ ⟨"b"⟩ secondTryAcks = [] ∧
      ¬w₃.1.Seen "t" [1] := by
  refine ⟨by decide, rfl, rfl, by decide, by decide, ?_⟩
  intro hseen
  obtain ⟨b, hb, -⟩ := hseen (⟨5, 0⟩, .put [7]) (by decide) ⟨"c"⟩ (by decide) Bytes
    (fun bytes => .ok (some bytes)) (quorumNode "c") onlySecondPeerAnswers ⟨none, HlcClock.new, [], []⟩ rfl
  cases hb

end Scenarios

end Fleet

end Skaidb.Cluster
