import Skaidb.Cluster.Coordinator

namespace Skaidb.Cluster

open Skaidb.Base Skaidb.Storage List Copies Gathered Node

variable {c : Copies}

section Copies

def Copies.Grows (c c' : Copies) : Prop :=
  ∀ node, ∀ v ∈ c.applied node, v ∈ c'.applied node

theorem Copies.Grows.refl (c : Copies) : c.Grows c := fun _ _ hv => hv

theorem Copies.Grows.trans {a b : Copies} (hab : a.Grows b) (hbc : b.Grows c) : a.Grows c :=
  fun node v hv => hbc node v (hab node v hv)

theorem Copies.mem_apply {c : Copies} : v ∈ (c.apply node v).applied node := by
  simp [apply]

theorem Copies.grows_apply (c : Copies) (node : NodeId) (v : Version) : c.Grows (c.apply node v) := by
  intro other u hu
  by_cases hn : other = node
  · subst hn
    simp [apply, hu]
  · simpa [apply, hn] using hu

theorem Copies.grows_land (c : Copies) (writes : List (NodeId × Version)) : c.Grows (c.land writes) := by
  induction writes generalizing c with
  | nil => exact Grows.refl c
  | cons w writes ih => exact (c.grows_apply w.1 w.2).trans (ih (c.apply w.1 w.2))

theorem Copies.exists_highest {vs : List Version} (h : v ∈ vs) :
    ∃ u, vs.foldr (fun v best => pick (some v) best) none = some u ∧ v.1 ≤ u.1 := by
  induction vs with
  | nil => simp at h
  | cons w vs ih =>
    rcases mem_cons.mp h with rfl | hmem
    · exact le_pick (.inl rfl)
    · obtain ⟨u, hu, hle⟩ := ih hmem
      have hpick : ∃ x, pick (some w) (vs.foldr (fun v best => pick (some v) best) none) = some x ∧
          u.1 ≤ x.1 := le_pick (.inr hu)
      obtain ⟨x, hx, hux⟩ := hpick
      exact ⟨x, hx, hle.trans hux⟩

theorem Copies.le_localGetVersioned (h : v ∈ c.applied node) :
    ∃ e, c.localGetVersioned node = some e ∧ v.1 ≤ e.2.1 := by
  obtain ⟨⟨hlc, value⟩, hu, hle⟩ : ∃ u, c.highest node = some u ∧ v.1 ≤ u.1 := exists_highest h
  rw [localGetVersioned, hu]
  cases value with
  | put bytes => exact ⟨(bytes, hlc, true), rfl, hle⟩
  | delete => exact ⟨([], hlc, false), rfl, hle⟩

end Copies

theorem required_max_one (level : Consistency) (rf : Nat) : level.required (max rf 1) = level.required rf := by
  cases level <;> simp [Consistency.required]

section Peers

theorem Node.peersOf_sublist (n : Node) {replicas : List NodeId} :
    ((n.peersOf replicas).map Prod.fst).Sublist (replicas.filter (fun r => r ≠ n.id)) := by
  unfold peersOf
  generalize replicas.filter (fun r => r ≠ n.id) = rs
  induction rs with
  | nil => simp
  | cons r rs ih =>
    cases haddr : n.peerAddr r with
    | none => simpa [filterMap_cons, haddr] using ih.cons r
    | some addr => simpa [filterMap_cons, haddr] using ih.cons_cons r

def ids (peers : List (Peer × Nat)) : List NodeId := peers.map (fun p => p.1.1)

theorem ids_append (xs ys : List (Peer × Nat)) : ids (xs ++ ys) = ids xs ++ ids ys :=
  map_append

theorem ids_zipIdx {peers : List Peer} : ids peers.zipIdx = peers.map Prod.fst := by
  calc ids peers.zipIdx = (peers.zipIdx.map Prod.fst).map Prod.fst := by rw [map_map]; rfl
    _ = peers.map Prod.fst := by rw [zipIdx_map_fst]

end Peers

section Writes

theorem sendWrite_spec {c : Copies} {peer : NodeId} {v : Version} {call : WriteCall} :
    c.Grows (sendWrite c peer v call).1 ∧
      ((sendWrite c peer v call).2 = true → v ∈ (sendWrite c peer v call).1.applied peer) := by
  have hland := c.grows_land call.landed
  have happly := (c.land call.landed).grows_apply peer v
  unfold sendWrite
  split
  · exact ⟨hland.trans happly, fun _ => mem_apply⟩
  · exact ⟨hland.trans happly, fun h => by simp at h⟩
  · exact ⟨hland, fun h => by simp at h⟩

theorem sendWave_spec (v : Version) (call : Nat → WriteCall) (c : Copies) (wave : List (Peer × Nat)) :
    c.Grows (sendWave v call c wave).1 ∧ (sendWave v call c wave).2.map Prod.fst = ids wave ∧
      ∀ node, (node, true) ∈ (sendWave v call c wave).2 → v ∈ (sendWave v call c wave).1.applied node := by
  induction wave generalizing c with
  | nil => exact ⟨Grows.refl c, rfl, fun node h => by simp [sendWave] at h⟩
  | cons p wave ih =>
    obtain ⟨⟨peer, addr⟩, i⟩ := p
    obtain ⟨hgrows, hack⟩ := sendWrite_spec
    obtain ⟨hgrows', hids, hacks⟩ := ih (sendWrite c peer v (call i)).1
    refine ⟨hgrows.trans hgrows', ?_, ?_⟩
    · simp only [sendWave, map_cons, hids]
      rfl
    · intro node hmem
      simp only [sendWave, mem_cons, Prod.mk.injEq] at hmem ⊢
      rcases hmem with ⟨rfl, hok⟩ | hmem
      · exact hgrows' node v (hack hok.symm)
      · exact hacks node hmem

-- The acks counted so far, of the coordinator's own copy and of the peers noted:
-- the peers are among those tried, and every node counted holds the write.
structure Fanout.Counts (f : Fanout) (own : List NodeId) (v : Version) (c : Copies)
    (tried : List NodeId) : Prop where
  acks : f.acks = (own ++ f.acked).length
  tried : f.acked.Sublist tried
  holds : ∀ node ∈ own ++ f.acked, v ∈ c.applied node

variable {own : List NodeId} {f : Fanout} {tried : List NodeId}

theorem Fanout.Counts.collect (h : f.Counts own v c tried) (answers : List (NodeId × Bool))
    (hacks : ∀ node, (node, true) ∈ answers → v ∈ c.applied node) :
    (f.collect answers).Counts own v c (tried ++ answers.map Prod.fst) := by
  induction answers generalizing f tried with
  | nil => simpa [Fanout.collect] using h
  | cons a answers ih =>
    obtain ⟨replica, ok⟩ := a
    have hrest : ∀ node, (node, true) ∈ answers → v ∈ c.applied node :=
      fun node hn => hacks node (by simp [hn])
    rw [map_cons, append_cons]
    cases ok with
    | false =>
      refine ih ⟨h.acks, ?_, h.holds⟩ hrest
      exact h.tried.trans (sublist_append_left _ _)
    | true =>
      refine ih ⟨?_, h.tried.append (Sublist.refl _), ?_⟩ hrest
      · have hacks := h.acks
        simp only [length_append, length_singleton] at hacks ⊢
        omega
      · intro node hn
        rw [← append_assoc] at hn
        rcases mem_append.mp hn with hn | hn
        · exact h.holds node hn
        · rw [mem_singleton] at hn
          subst hn
          exact hacks node (by simp)

theorem Fanout.Counts.wave (h : f.Counts own v c tried) (call : Nat → WriteCall) (wave : List (Peer × Nat)) :
    (f.collect (sendWave v call c wave).2).Counts own v (sendWave v call c wave).1 (tried ++ ids wave) := by
  obtain ⟨hgrows, hids, hacks⟩ := sendWave_spec v call c wave
  have hlater : f.Counts own v (sendWave v call c wave).1 tried :=
    ⟨h.acks, h.tried, fun node hn => hgrows node v (h.holds node hn)⟩
  rw [← hids]
  exact hlater.collect _ hacks

theorem retryWaves_counts (needed : Nat) (call : Nat → WriteCall) (fuel : Nat) (untried : List (Peer × Nat))
    (h : f.Counts own v c tried) :
    ∃ more, untried = more ++ (retryWaves needed v call fuel c f untried).2.2 ∧
      (retryWaves needed v call fuel c f untried).2.1.Counts own v
        (retryWaves needed v call fuel c f untried).1 (tried ++ ids more) := by
  induction fuel generalizing c f tried untried with
  | zero => exact ⟨[], rfl, by simpa [ids, retryWaves] using h⟩
  | succ fuel ih =>
    rw [retryWaves]
    split
    · obtain ⟨more, hmore, hcounts⟩ := ih (untried.drop (min (needed - f.acks) untried.length))
        (h.wave call (untried.take (min (needed - f.acks) untried.length)))
      refine ⟨untried.take (min (needed - f.acks) untried.length) ++ more, ?_, ?_⟩
      · rw [append_assoc, ← hmore, take_append_drop]
      · rw [ids_append, ← append_assoc]
        exact hcounts
    · exact ⟨[], rfl, by simpa [ids] using h⟩

theorem le_of_writeResult_ok (h : writeResult needed acks = .ok ()) : needed ≤ acks := by
  unfold writeResult at h
  split at h
  case isTrue hle => exact hle
  case isFalse => cases h

theorem fanOut_ok {env : WriteEnv} (hown : own.length = if buffered && env.syncOk then 1 else 0)
    (hholds : ∀ node ∈ own, v ∈ c.applied node) (hok : (fanOut needed buffered peers c v env).result = .ok ()) :
    ∃ acked : List NodeId, acked.Sublist (ids peers) ∧ needed ≤ (own ++ acked).length ∧
      ∀ node ∈ own ++ acked, v ∈ (fanOut needed buffered peers c v env).copies.applied node := by
  have hstart : Fanout.Counts ⟨if buffered && env.syncOk then 1 else 0, [], []⟩ own v c [] := by
    refine ⟨?_, Sublist.refl _, ?_⟩
    · simp [hown]
    · simpa using hholds
  have hfirst := hstart.wave env.call (peers.take (firstCount needed buffered peers))
  obtain ⟨more, hmore, hcounts⟩ := retryWaves_counts needed env.call peers.length
    (peers.drop (firstCount needed buffered peers)) hfirst
  refine ⟨_, hcounts.tried.trans ?_, ?_, hcounts.holds⟩
  · have hmoreSub : more.Sublist (peers.drop (firstCount needed buffered peers)) := by
      rw [hmore]
      exact sublist_append_left _ _
    have hboth := (Sublist.refl (peers.take (firstCount needed buffered peers))).append hmoreSub
    rw [take_append_drop] at hboth
    rw [nil_append, ← ids_append]
    exact hboth.map _
  · rw [← hcounts.acks]
    exact le_of_writeResult_ok hok

theorem Node.ids_peersOf_sublist (n : Node) (replicas : List NodeId) :
    (ids (n.peersOf replicas).zipIdx).Sublist (replicas.filter (fun r => r ≠ n.id)) := by
  rw [ids_zipIdx]
  exact n.peersOf_sublist

theorem Node.replicate_ok {n : Node} {replicas : List NodeId} {oc : Option Consistency}
    (h : (n.replicate c replicas oc v env).result = .ok ()) :
    ∃ holders : List NodeId, holders.Subperm replicas ∧
      (oc.getD n.writeConsistency).required (max replicas.length 1) ≤ holders.length ∧
      ∀ node ∈ holders, v ∈ (n.replicate c replicas oc v env).copies.applied node := by
  have hpeers := n.ids_peersOf_sublist replicas
  unfold replicate at h ⊢
  by_cases hshed : env.shedding = true
  · rw [if_pos hshed] at h
    cases h
  rw [if_neg hshed] at h ⊢
  by_cases hself : n.id ∈ replicas
  · rw [if_pos hself] at h ⊢
    cases hap : env.applyError with
    | some e => simp [hap] at h
    | none =>
      simp only [hap] at h ⊢
      -- the coordinator counts once its fsync is done; it holds the write either way
      have hown : (if env.syncOk then [n.id] else []).length =
          if true && env.syncOk then 1 else 0 := by
        cases env.syncOk <;> rfl
      have hsub : (if env.syncOk then [n.id] else []).Sublist [n.id] := by
        cases env.syncOk <;> simp
      have hmine : ∀ node ∈ (if env.syncOk then [n.id] else []),
          v ∈ ((c.land env.landed).apply n.id v).applied node := by
        intro node hnode
        obtain rfl := mem_singleton.mp (hsub.subset hnode)
        exact mem_apply
      obtain ⟨acked, hacked, hle, hholds⟩ := fanOut_ok hown hmine h
      exact ⟨_, append_subperm_of_sublist_filter hsub (fun _ => hself) (hacked.trans hpeers),
        hle, hholds⟩
  · rw [if_neg hself] at h ⊢
    have hnone : ∀ node ∈ ([]), v ∈ (c.land env.landed).applied node := by simp
    obtain ⟨acked, hacked, hle, hholds⟩ := fanOut_ok rfl hnone h
    exact ⟨_, append_subperm_of_sublist_filter (nil_sublist [n.id]) (by simp)
      (hacked.trans hpeers), hle, hholds⟩

theorem retryWaves_grows (needed : Nat) (v : Version) (call : Nat → WriteCall) (fuel : Nat) (c : Copies)
    (f : Fanout) (untried : List (Peer × Nat)) : c.Grows (retryWaves needed v call fuel c f untried).1 := by
  induction fuel generalizing c f untried with
  | zero => exact Grows.refl c
  | succ fuel ih =>
    rw [retryWaves]
    split
    · exact (sendWave_spec v call c _).1.trans (ih _ _ _)
    · exact Grows.refl c

theorem Node.replicate_grows (n : Node) (c : Copies) (replicas : List NodeId) (oc : Option Consistency)
    (v : Version) (env : WriteEnv) : c.Grows (n.replicate c replicas oc v env).copies := by
  have hland := c.grows_land env.landed
  have hfan : ∀ needed buffered peers (c' : Copies),
      c'.Grows (fanOut needed buffered peers c' v env).copies := by
    intro needed buffered peers c'
    exact (sendWave_spec v env.call c' _).1.trans (retryWaves_grows _ _ _ _ _ _ _)
  unfold replicate
  split_ifs
  · exact Grows.refl c
  · split
    · exact hland
    · exact (hland.trans (grows_apply _ _ _)).trans (hfan _ _ _ _)
  · exact hland.trans (hfan _ _ _ _)

end Writes

section Reads

variable {c : Copies} {g : Gathered} {env : ReadEnv}

-- One responder counted per node heard, and the best version seen reaches every
-- version those nodes had applied when the read began.
structure Gathered.Heard (g : Gathered) (c : Copies) (heard : List NodeId) : Prop where
  responders : g.responders = heard.length
  reaches : ∀ node ∈ heard, ∀ v ∈ c.applied node, ∃ b, g.best = some b ∧ v.1 ≤ b.1

theorem Gathered.merge_best {g : Gathered} {entry : Option (Bytes × Hlc × Bool)} : (g.merge addr entry).best =
      pick g.best (entry.map (fun e => (e.2.1, if e.2.2 then some e.1 else none))) := by
  cases entry with
  | none => simp [merge]
  | some e =>
    cases hb : g.best with
    | none | some b => simp [merge, hb, pick]

variable {heard : List NodeId}

section

variable (h : g.Heard c heard)

include h

theorem Gathered.Heard.merge (addr : Option String) {later : Copies} (hlater : c.Grows later) (node : NodeId) :
    (g.merge addr (later.localGetVersioned node)).Heard c (heard ++ [node]) := by
  refine ⟨by simp [Gathered.merge, h.responders], ?_⟩
  intro other hother v hv
  rw [merge_best]
  rcases mem_append.mp hother with hold | hnew
  · obtain ⟨b, hb, hle⟩ := h.reaches other hold v hv
    obtain ⟨u, hu, hbu⟩ := le_pick (.inl hb)
    exact ⟨u, hu, hle.trans hbu⟩
  · rw [mem_singleton] at hnew
    subst hnew
    obtain ⟨e, he, hle⟩ := le_localGetVersioned (hlater other v hv)
    obtain ⟨u, hu, heu⟩ : ∃ u, pick g.best (some (e.2.1, if e.2.2 then some e.1 else none)) = some u ∧
        e.2.1 ≤ u.1 := le_pick (.inr rfl)
    exact ⟨u, by rw [he]; exact hu, hle.trans heu⟩

theorem Gathered.Heard.hear (env : ReadEnv) (peer : Peer × Nat) :
    ∃ more, more.Sublist (ids [peer]) ∧ (g.hear c env peer).Heard c (heard ++ more) := by
  unfold Gathered.hear
  cases env.reply peer.2 with
  | none => exact ⟨[], nil_sublist _, by simpa using h⟩
  | some n => exact ⟨ids [peer], Sublist.refl _, h.merge _ (c.grows_land _) _⟩

theorem Gathered.Heard.foldl_hear {peers : List (Peer × Nat)} : ∃ more, more.Sublist (ids peers) ∧
      (peers.foldl (fun g peer => g.hear c env peer) g).Heard c (heard ++ more) := by
  induction peers generalizing g heard with
  | nil => exact ⟨[], nil_sublist _, by simpa using h⟩
  | cons peer peers ih =>
    obtain ⟨one, hone, hheard⟩ := h.hear env peer
    obtain ⟨more, hmore, hall⟩ := ih hheard
    exact ⟨one ++ more, hone.append hmore, by simpa using hall⟩

theorem Gathered.Heard.shortfall (needed : Nat) (env : ReadEnv) (untried : List (Peer × Nat)) :
    ∃ more, more.Sublist (ids untried) ∧ (shortfall needed c env g untried).Heard c (heard ++ more) := by
  induction untried generalizing g heard with
  | nil => exact ⟨[], nil_sublist _, by simpa [Cluster.shortfall] using h⟩
  | cons peer untried ih =>
    rw [Cluster.shortfall]
    split
    · obtain ⟨one, hone, hheard⟩ := h.hear env peer
      obtain ⟨more, hmore, hall⟩ := ih hheard
      exact ⟨one ++ more, hone.append hmore, by simpa using hall⟩
    · exact ⟨[], nil_sublist _, by simpa using h⟩

theorem Gathered.Heard.gather (needed first : Nat) (peers : List (Peer × Nat)) (env : ReadEnv) :
    ∃ more, more.Sublist (ids peers) ∧ (gather needed first peers c env g).Heard c (heard ++ more) := by
  obtain ⟨asked, hasked, hheard⟩ := h.foldl_hear
  obtain ⟨more, hmore, hall⟩ := hheard.shortfall needed env (peers.drop first)
  refine ⟨asked ++ more, ?_, by simpa [Cluster.gather] using hall⟩
  have hboth := hasked.append hmore
  rwa [← ids_append, take_append_drop] at hboth

end

variable {Doc : Type} {n : Node}

theorem Node.answer_ok {out : ReadOutcome Doc} (h : n.answer decode needed key wall g = .ok out) :
    needed ≤ g.responders ∧ out.best = g.best ∧ n.serve decode wall key g.best = .ok out.rows := by
  unfold answer at h
  split at h
  · cases h
  case isFalse hle =>
    cases hserve : n.serve decode wall key g.best with
    | error e =>
      rw [hserve] at h
      cases h
    | ok rows =>
      rw [hserve] at h
      cases h
      exact ⟨not_lt.mp hle, rfl, rfl⟩

theorem Node.pointGet_ok {replicas : List NodeId} {oc : Option Consistency} {out : ReadOutcome Doc}
    (h : n.pointGet decode c replicas oc key env = .ok out) : ∃ heard : List NodeId, heard.Subperm replicas ∧
      (oc.getD n.readConsistency).required (max replicas.length 1) ≤ heard.length ∧
      (∀ node ∈ heard, ∀ v ∈ c.applied node, ∃ b, out.best = some b ∧ v.1 ≤ b.1) ∧
      n.serve decode env.wall key out.best = .ok out.rows := by
  have hpeers := n.ids_peersOf_sublist replicas
  have hstart : Heard ⟨0, none, []⟩ c [] := ⟨rfl, by simp⟩
  unfold pointGet at h
  by_cases hself : n.id ∈ replicas
  · rw [if_pos hself] at h
    cases hlocal : env.localError with
    | some e => simp [hlocal] at h
    | none =>
      simp only [hlocal] at h
      obtain ⟨hle, hbest, hserve⟩ := answer_ok h
      have hown := hstart.merge none (c.grows_land (env.landed.take env.localAt)) n.id
      obtain ⟨more, hmore, hheard⟩ := hown.gather _ _ _ env
      rw [hheard.responders] at hle
      refine ⟨_, ?_, hle, ?_, hbest ▸ hserve⟩
      · exact append_subperm_of_sublist_filter (Sublist.refl _) (fun _ => hself)
          (hmore.trans hpeers)
      · rw [hbest]
        exact hheard.reaches
  · rw [if_neg hself] at h
    obtain ⟨hle, hbest, hserve⟩ := answer_ok h
    obtain ⟨more, hmore, hheard⟩ := hstart.gather _ _ _ env
    rw [hheard.responders] at hle
    refine ⟨_, ?_, hle, ?_, hbest ▸ hserve⟩
    · exact append_subperm_of_sublist_filter (nil_sublist [n.id]) (by simp)
        (hmore.trans hpeers)
    · rw [hbest]
      exact hheard.reaches

-- Read and write quorums that together outnumber the replicas share one, so a read after an
-- acknowledged write sees a version at least as high, whichever peers fail, in whatever
-- order the replicas are listed and whatever else is written.
theorem Node.pointGet_reaches_replicated {w r : Node} {replicas replicas' : List NodeId}
    (hsame : replicas'.Perm replicas) {wc rc : Option Consistency}
    (hstrong : isStrong (rc.getD r.readConsistency) (wc.getD w.writeConsistency)
      replicas.length = true) {c : Copies} {v : Version} {we : WriteEnv}
    (hwrite : (w.replicate c replicas wc v we).result = .ok ())
    (between : List (NodeId × Version)) {key : Bytes} {re : ReadEnv} {out : ReadOutcome Doc}
    (hread : r.pointGet decode ((w.replicate c replicas wc v we).copies.land between) replicas' rc
      key re = .ok out) :
    ∃ b, out.best = some b ∧ v.1 ≤ b.1 ∧ r.serve decode re.wall key (some b) = .ok out.rows := by
  obtain ⟨holders, hholders, hW, hholds⟩ := replicate_ok hwrite
  obtain ⟨heard, hheard, hR, hreaches, hserve⟩ := pointGet_ok hread
  have hheard' : heard.Subperm replicas := hheard.trans hsame.subperm
  have hover : replicas.length < holders.length + heard.length := by
    rw [hsame.length_eq] at hR
    have hneeded : replicas.length < (rc.getD r.readConsistency).required replicas.length +
        (wc.getD w.writeConsistency).required replicas.length := by
      simpa [isStrong] using hstrong
    rw [required_max_one] at hR hW
    omega
  obtain ⟨node, hheld, hin⟩ := exists_mem_of_subperm_of_length_lt hholders hheard' hover
  have hkept := grows_land _ between node v (hholds node hheld)
  obtain ⟨b, hb, hle⟩ := hreaches node hin v hkept
  exact ⟨b, hb, hle, hb ▸ hserve⟩

def quorumNode (name : String) : Node :=
  { id := ⟨name⟩
    peerAddr := fun r => some r.name
    writeConsistency := .quorum
    readConsistency := .quorum
    clock := HlcClock.new
    ttlMs := none }

def firstPeerFails : WriteEnv :=
  { shedding := false
    landed := []
    applyError := none
    syncOk := true
    call := fun i => if i = 0 then ⟨[], .failed false⟩ else ⟨[], .ack⟩
    queueFull := false }

def onlySecondPeerAnswers : ReadEnv :=
  { landed := []
    localAt := 0
    localError := none
    reply := fun i => if i = 0 then none else some 0
    wall := 9 }

-- `a` writes, `b` misses the write, `c` takes it and then an older one; `b` reads
-- without reaching `a`.
theorem Node.pointGet_reaches_replicated_after_failures :
    ∃ b, some ((⟨5, 0⟩ : Hlc), some ([7] : Bytes)) = some b ∧ (⟨5, 0⟩ : Hlc) ≤ b.1 ∧
      (quorumNode "b").serve (fun bytes => .ok (some bytes)) 9 [1] (some b) = .ok [([1], [7])] := by
  have hperm : [(⟨"b"⟩ : NodeId), ⟨"a"⟩, ⟨"c"⟩].Perm [⟨"a"⟩, ⟨"b"⟩, ⟨"c"⟩] := Perm.swap _ _ _
  have hread : (quorumNode "b").pointGet (fun bytes => .ok (some bytes))
      (((quorumNode "a").replicate ⟨fun _ => []⟩ [⟨"a"⟩, ⟨"b"⟩, ⟨"c"⟩] none
        (⟨5, 0⟩, .put [7]) firstPeerFails).copies.land [(⟨"c"⟩, ⟨3, 0⟩, .delete)])
      [⟨"b"⟩, ⟨"a"⟩, ⟨"c"⟩] none [1] onlySecondPeerAnswers =
      .ok ⟨some (⟨5, 0⟩, some [7]), ⟨⟨9, 0⟩⟩, [none], [([1], [7])]⟩ := rfl
  exact pointGet_reaches_replicated hperm (by decide) rfl _ hread

end Reads

end Skaidb.Cluster
