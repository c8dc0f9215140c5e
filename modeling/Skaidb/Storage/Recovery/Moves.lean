import Skaidb.Storage.Engine.Reads
import Skaidb.Storage.Recovery.System

namespace Skaidb.Storage

open Skaidb.Base List Session Engine

def Disk.listed (disk : Disk) : List Nat := (disk.manifest.getD []).map Prod.snd

structure SameFiles (e e' : Engine) : Prop where
  opts : e'.opts = e.opts
  wal : e'.wal = e.wal
  mem : e'.mem = e.mem
  frozen : e'.frozen.map (fun f => (f.walSeq, f.mem)) = e.frozen.map (fun f => (f.walSeq, f.mem))
  nextWalSeq : e'.nextWalSeq = e.nextWalSeq
  l0 : e'.l0 = e.l0
  levels : e'.levels = e.levels

def Session.appended (s : Session) (r : WalRecord) : Session :=
  (s.emit (.appendWal r)).modify (fun e =>
    { e with
      wal := { e.wal with writeOffset := e.wal.writeOffset + 1 }
      mem := e.mem.insert r.key r.hlc r.op })

-- What an engine can do to its directory, in the smallest pieces after which
-- engine and files belong together again.
inductive Move : Session → Session → Prop
  | note (s : Session) (e : Engine) (same : SameFiles s.engine e) : Move s { s with engine := e }
  | append (s : Session) (r : WalRecord) : Move s (s.appended r)
  | sync (s : Session) :
      Move s ((s.emit .syncWal).modify (fun e =>
        { e with wal := { e.wal with synced := e.wal.writeOffset } }))
  | freeze (s : Session) (above : ∀ n ∈ s.disk.listSegments, n < s.engine.nextWalSeq) :
      Move s s.freeze
  | table (s : Session) (t : SsTable) (unlisted : t.path ∉ s.disk.listed) : Move s (s.writeTable t)
  | merge (s : Session) (l0 levels : List SsTable) (nextSeq : Nat)
      (rework : Reworks Tombstone s.engine.tablesLayers (tableLayers (l0 ++ levels))) :
      Move s (s.modify (fun e => { e with l0, levels, nextSeq }))
  | persist (s : Session)
      (files : ∀ t ∈ s.engine.sstablesNewestFirst, s.disk.tables.get? t.path = some t.entries)
      (nodup : s.engine.paths.Nodup) : Move s s.persistManifest
  | push (s : Session) (f : FrozenMem) (rest : List FrozenMem) (sst : SsTable)
      (frozen : s.engine.frozen = f :: rest) (layer : sst.layer = f.mem.layer)
      (files : ∀ t ∈ sst :: s.engine.sstablesNewestFirst, s.disk.tables.get? t.path = some t.entries)
      (nodup : (sst.path :: s.engine.paths).Nodup) :
      Move s (((s.modify (fun e => { e with l0 := sst :: e.l0 })).persistManifest).modify
        (fun e => { e with frozen := rest }))
  | drop (s : Session) (n : Nat) (flushed : ∀ f ∈ s.engine.frozen, n < f.walSeq)
      (below : n < s.engine.nextWalSeq) (least : ∀ m ∈ s.disk.listSegments, n ≤ m) :
      Move s (s.emit (.removeSegment n))
  | unlink (s : Session) (p : Nat) (unlisted : p ∉ s.disk.listed) : Move s (s.emit (.removeTable p))

abbrev Moves : Session → Session → Prop := Relation.ReflTransGen Move

def Persisted (e : Engine) (d : Disk) : Prop :=
  d.manifest = some e.manifestLines ∨ (d.manifest = none ∧ e.l0 = [] ∧ e.levels = [])

def manifestOf (l0 levels : List SsTable) : List (Nat × Nat) :=
  l0.map (fun t => (0, t.path)) ++ levels.zipIdx.map (fun (t, i) => (i + 1, t.path))

theorem paths_manifestOf (l0 levels : List SsTable) :
    (manifestOf l0 levels).map Prod.snd = (l0 ++ levels).map SsTable.path := by
  unfold manifestOf
  rw [map_append, map_append, map_map, map_map]
  congr 1
  rw [← zipIdx_map_fst 0 levels, map_map]
  congr 1
  rw [zipIdx_map_fst]

theorem Persisted.listed {e : Engine} {d : Disk} (h : Persisted e d) : d.listed = e.paths := by
  obtain h | ⟨h, hl0, hlevels⟩ := h
  · rw [Disk.listed, h, Option.getD_some]
    exact paths_manifestOf e.l0 e.levels
  · rw [Disk.listed, h, paths, sstablesNewestFirst, hl0, hlevels]
    rfl

theorem Persisted.of_eq {e e' : Engine} {d d' : Disk} (h : Persisted e d) (hl0 : e'.l0 = e.l0)
    (hlevels : e'.levels = e.levels) (hd : d'.manifest = d.manifest) : Persisted e' d' := by
  unfold Persisted manifestLines at *
  rw [hl0, hlevels, hd]
  exact h

structure Leads (s s' : Session) : Prop where
  moves : Moves s s'
  persisted : Persisted s'.engine s'.disk

namespace Session

theorem syncThrough_moves (s : Session) : Moves s (s.syncThrough commit) := by
  unfold syncThrough
  dsimp only
  split_ifs
  · exact .refl
  · exact .single (.sync s)

theorem manifest_syncThrough (s : Session) : (s.syncThrough commit).disk.manifest = s.disk.manifest := by
  unfold syncThrough
  dsimp only
  split_ifs
  · rfl
  · rw [disk_modify, disk_emit]
    rfl

variable {s : Session}

theorem removeFiles_moves {paths : List Nat} (h : ∀ p ∈ paths, p ∉ s.disk.listed) :
    Moves s (s.removeFiles paths) := by
  induction paths generalizing s with
  | nil => simpa [removeFiles, emitAll] using Relation.ReflTransGen.refl
  | cons p paths ih =>
    have hrest : Moves (s.emit (.removeTable p)) ((s.emit (.removeTable p)).removeFiles paths) := by
      refine ih ?_
      intro q hq
      rw [disk_emit]
      exact h q (by simp [hq])
    have heq : s.removeFiles (p :: paths) = (s.emit (.removeTable p)).removeFiles paths := by
      simp [removeFiles, emitAll, emit]
    rw [heq]
    exact .head (.unlink s p (h p (by simp))) hrest

theorem manifest_removeFiles (s : Session) (paths : List Nat) :
    (s.removeFiles paths).disk.manifest = s.disk.manifest := by
  rw [removeFiles, disk_emitAll]
  generalize s.disk = d
  induction paths generalizing d with
  | nil => rfl
  | cons p paths ih => exact ih (d.apply (.removeTable p))

private theorem listSegments_removeSegment {d : Disk} :
    (d.apply (.removeSegment n)).listSegments = d.listSegments.filter (fun m => m ≠ n) := by
  simp only [Disk.listSegments, Disk.apply, OrdMap.erase, OrdMap.filter, filter_map]
  rfl

private theorem sorted_listSegments (d : Disk) : d.listSegments.Pairwise (· < ·) := by
  rw [Disk.listSegments, pairwise_map]
  exact d.segments.sorted

private theorem filter_le_prefix_of_sorted {ns : List Nat} (h : ns.Pairwise (· < ·)) :
    ∃ rest, ns = ns.filter (fun n => n ≤ bound) ++ rest := by
  induction ns with
  | nil => exact ⟨[], rfl⟩
  | cons n ns ih =>
    obtain ⟨hhead, htail⟩ := pairwise_cons.mp h
    obtain ⟨rest, hrest⟩ := ih htail
    by_cases hn : n ≤ bound
    · refine ⟨rest, ?_⟩
      rw [filter_cons_of_pos (by simpa using hn), cons_append, ← hrest]
    · refine ⟨n :: ns, ?_⟩
      have hnil : (n :: ns).filter (fun n => n ≤ bound) = [] := by
        rw [filter_eq_nil_iff]
        intro m hm
        obtain rfl | hm := mem_cons.mp hm
        · simpa using hn
        · have := hhead m hm
          simp only [decide_eq_true_eq]
          omega
      rw [hnil, nil_append]

private theorem removeSegments_moves {ns rest : List Nat} (hns : s.disk.listSegments = ns ++ rest)
    (hflushed : ∀ n ∈ ns, (∀ f ∈ s.engine.frozen, n < f.walSeq) ∧ n < s.engine.nextWalSeq) :
    Moves s (s.emitAll (ns.map Effect.removeSegment)) := by
  induction ns generalizing s with
  | nil => simpa [emitAll] using Relation.ReflTransGen.refl
  | cons n ns ih =>
    have hsorted := sorted_listSegments s.disk
    rw [hns, cons_append] at hsorted
    obtain ⟨hhead, htail⟩ := pairwise_cons.mp hsorted
    obtain ⟨hfrozen, hbelow⟩ := hflushed n (by simp)
    have hmove : Move s (s.emit (.removeSegment n)) := by
      refine .drop s n hfrozen hbelow ?_
      intro m hm
      rw [hns, cons_append] at hm
      obtain rfl | hm := mem_cons.mp hm
      · exact le_rfl
      · exact (hhead m hm).le
    have hleft : (s.emit (.removeSegment n)).disk.listSegments = ns ++ rest := by
      rw [disk_emit, listSegments_removeSegment, hns, cons_append,
        filter_cons_of_neg (by simp), filter_eq_self]
      intro m hm
      have := hhead m hm
      simp only [ne_eq, decide_eq_true_eq]
      omega
    have hrest := ih hleft (fun m hm => hflushed m (by simp [hm]))
    have heq : s.emitAll ((n :: ns).map Effect.removeSegment) =
        (s.emit (.removeSegment n)).emitAll (ns.map Effect.removeSegment) := by
      simp [emitAll, emit]
    rw [heq]
    exact .head hmove hrest

theorem dropFlushed_moves {f : FrozenMem}
    (hfrozen : ∀ g ∈ s.engine.frozen, f.walSeq < g.walSeq) (hbelow : f.walSeq < s.engine.nextWalSeq) :
    Moves s (s.dropFlushed f) := by
  unfold dropFlushed
  split_ifs
  · obtain ⟨rest, hrest⟩ := filter_le_prefix_of_sorted (sorted_listSegments s.disk)
    refine removeSegments_moves hrest ?_
    intro n hn
    have hle : n ≤ f.walSeq := by simpa using (mem_filter.mp hn).2
    exact ⟨fun g hg => hle.trans_lt (hfrozen g hg), hle.trans_lt hbelow⟩
  · exact .refl

theorem manifest_dropFlushed {s : Session} : (s.dropFlushed f).disk.manifest = s.disk.manifest := by
  unfold dropFlushed
  split_ifs
  · rw [dropSegmentsThrough, disk_emitAll]
    generalize s.disk.listSegments.filter (fun n => n ≤ f.walSeq) = ns
    generalize s.disk = d
    induction ns generalizing d with
    | nil => rfl
    | cons n ns ih => exact ih (d.apply (.removeSegment n))
  · rfl

theorem installFlush_moves {job : FlushJob} (h : WellFormed s.engine s.disk [(job, some sst)] cj) :
    Leads s (s.installFlush job sst) := by
  obtain ⟨f, rest, hfrozen, hmem, hseq, -⟩ := h.flushing.job
  obtain ⟨hsst, hfile⟩ := h.flush_built (job, some sst) (by simp) sst rfl
  have hpath : sst.path = job.path := by rw [hsst]; rfl
  have hnodup : (sst.path :: s.engine.paths).Nodup := by
    have hn := h.nodup
    have hfront := (nodup_append.mp hn).1
    rw [hpath]
    exact (perm_append_comm.nodup_iff.mp hfront)
  rw [s.installFlush_eq sst hfrozen hseq]
  have hseqs := h.seqs
  rw [hfrozen, map_cons, pairwise_cons] at hseqs
  constructor
  · refine .head (.push s f rest sst hfrozen (h.flush_layer hmem) ?_ hnodup) (dropFlushed_moves ?_ ?_)
    · intro t ht
      obtain rfl | ht := mem_cons.mp ht
      · exact hfile
      · exact h.on_disk t ht
    · intro g hg
      exact hseqs.1 g.walSeq (mem_map_of_mem hg)
    · exact h.seqs_below f (by simp [hfrozen])
  · refine .inl ?_
    rw [manifest_dropFlushed, disk_modify, persistManifest, disk_emit, engine_dropFlushed]
    rfl

theorem mergeSteps_moves {s' : Session} (h : MergeSteps s s')
    (hlisted : ∀ p ∈ s.disk.listed, p < s.engine.nextSeq) :
    Moves s s' ∧ ∀ p ∈ s'.disk.listed, p < s'.engine.nextSeq := by
  induction h with
  | refl => exact ⟨.refl, hlisted⟩
  | tail _ hstep ih =>
    rename_i mid last hprev
    obtain ⟨t, l0, levels, hpath, rework⟩ := hstep
    obtain ⟨hmoves, hmid⟩ := ih
    have hfresh : t.path ∉ mid.disk.listed := by
      intro hmem
      have := hmid _ hmem
      omega
    refine ⟨?_, ?_⟩
    · refine (hmoves.tail (.table mid t hfresh)).tail ?_
      exact .merge (mid.writeTable t) l0 levels (mid.engine.nextSeq + 1) rework
    · intro p hp
      rw [disk_modify, writeTable, disk_emit] at hp
      have hlt : p < mid.engine.nextSeq := hmid p hp
      exact Nat.lt_succ_of_lt hlt

theorem removeRetired_moves {paths : List Nat}
    (hp : Persisted s.engine s.disk) (hret : Retired s.engine fj cj paths) : Leads s (s.removeFiles paths) := by
  refine ⟨removeFiles_moves ?_, hp.of_eq rfl rfl (manifest_removeFiles _ _)⟩
  intro p hmem hin
  rw [hp.listed] at hin
  exact (hret p hmem).2 (by simp only [reserved, mem_append]; exact .inl (.inl hin))

theorem persisted_persistManifest {s : Session} :
    Persisted s.persistManifest.engine s.persistManifest.disk := by
  refine .inl ?_
  rw [persistManifest, disk_emit]
  rfl

theorem freeze_moves (habove : ∀ n ∈ s.disk.listSegments, n < s.engine.nextWalSeq)
    (hp : Persisted s.engine s.disk) : Leads s s.freeze := by
  refine ⟨.single (.freeze s habove), hp.of_eq rfl rfl ?_⟩
  simp only [freeze, rotate, disk_modify, disk_emit]
  simp only [Disk.apply]
  cases s.disk.wal <;> rfl

section

variable (h : WellFormed s.engine s.disk fj cj) (hp : Persisted s.engine s.disk)

include h hp

theorem listed_below : ∀ p ∈ s.disk.listed, p < s.engine.nextSeq := by
  intro p hmem
  rw [hp.listed] at hmem
  exact h.below p (by simp [reserved, hmem])

theorem maybeCompact_moves : Leads s (s.maybeCompact now) := by
  obtain heq | ⟨s', old, hmerge, hwf, hret, heq⟩ := maybeCompact_merges now h
  · rw [heq]
    exact ⟨.refl, hp⟩
  · have hmoves := (mergeSteps_moves hmerge (listed_below h hp)).1
    obtain ⟨hremove, hp'⟩ := removeRetired_moves persisted_persistManifest hret
    rw [heq]
    exact ⟨(hmoves.tail (.persist s' hwf.on_disk hwf.paths_nodup)).trans hremove, hp'⟩

theorem drainFrozen_moves : Leads s (drainFrozen fuel s) := by
  induction fuel generalizing s with
  | zero => exact ⟨.refl, hp⟩
  | succ fuel ih =>
    rw [drainFrozen]
    cases htake : s.engine.takeFlushJob with
    | none => exact ⟨.refl, hp⟩
    | some taken =>
      obtain ⟨job, e⟩ := taken
      obtain ⟨rfl, f, rest, hfrozen, hjob, he⟩ := h.flushing.takeFlushJob htake
      have hbuilt := takeFlush_built h htake
      have hnote : Move s { s with engine := e } := by
        refine .note s e ⟨?_, ?_, ?_, ?_, ?_, ?_, ?_⟩ <;> rw [he]
        simp [hfrozen]
      have htable : Move { s with engine := e }
          (({ s with engine := e } : Session).writeTable (buildFlush job)) := by
        refine .table _ _ ?_
        intro hmem
        have hlt := listed_below h hp _ hmem
        rw [hjob] at hlt
        exact lt_irrefl _ hlt
      obtain ⟨hinstall, hp'⟩ := installFlush_moves
        (s := ({ s with engine := e } : Session).writeTable (buildFlush job)) hbuilt
      obtain ⟨hwf, -⟩ := installFlush_spec true
        (s := ({ s with engine := e } : Session).writeTable (buildFlush job)) hbuilt
      obtain ⟨hrest, hlast⟩ := ih hwf hp'
      exact ⟨.head hnote (.head htable (hinstall.trans hrest)), hlast⟩

theorem flush_moves
    (habove : s.engine.mem.isEmpty = false → ∀ n ∈ s.disk.listSegments, n < s.engine.nextWalSeq) :
    Leads s (s.flush now) := by
  unfold flush
  split_ifs with heph hempty
  · exact ⟨.refl, hp⟩
  · obtain ⟨hmoves₁, hp₁⟩ := drainFrozen_moves h hp
    obtain ⟨hwf₁, -⟩ := drainFrozen_spec true h
    obtain ⟨hmoves₂, hp₂⟩ := maybeCompact_moves hwf₁ hp₁
    exact ⟨hmoves₁.trans hmoves₂, hp₂⟩
  · obtain ⟨hmoves₀, hp₀⟩ := freeze_moves (habove (by simpa using hempty)) hp
    obtain ⟨hwf₀, -⟩ := freeze_spec true h
    obtain ⟨hmoves₁, hp₁⟩ := drainFrozen_moves hwf₀ hp₀
    obtain ⟨hwf₁, -⟩ := drainFrozen_spec true hwf₀
    obtain ⟨hmoves₂, hp₂⟩ := maybeCompact_moves hwf₁ hp₁
    exact ⟨hmoves₀.trans (hmoves₁.trans hmoves₂), hp₂⟩

theorem maybeFlush_moves
    (habove : s.engine.opts.flushThresholdBytes ≤ s.engine.mem.approxBytes →
      ∀ n ∈ s.disk.listSegments, n < s.engine.nextWalSeq) :
    Leads s (s.maybeFlush now) := by
  unfold maybeFlush
  split_ifs with hsmall hmany
  · exact ⟨.refl, hp⟩
  · refine flush_moves h hp (fun _ => habove ?_)
    simp only [Bool.or_eq_true, decide_eq_true_eq, not_or] at hsmall
    omega
  · refine freeze_moves (habove ?_) hp
    simp only [Bool.or_eq_true, decide_eq_true_eq, not_or] at hsmall
    omega

end

theorem installCompact_moves {i : Nat} (h : WellFormed s.engine s.disk fj cj)
    (hj : cj[i]? = some (job, some run)) (hp : Persisted s.engine s.disk) :
    Leads s (s.installCompact job run) := by
  unfold installCompact
  split_ifs with hpresent
  · obtain ⟨l0, levels, heq, hwf, hrework, hret⟩ := placeRun_spec h hj hpresent
    have hmodify : s.modify (fun e => e.placeRun job.inputs run) =
        s.modify (fun e => { e with l0, levels, nextSeq := s.engine.nextSeq }) := by
      unfold modify
      dsimp only
      rw [heq]
    rw [hmodify]
    have hmerge := Move.merge s l0 levels s.engine.nextSeq hrework
    generalize hs' : s.modify (fun e => { e with l0, levels, nextSeq := s.engine.nextSeq }) = s' at hmerge ⊢
    have hwf' : WellFormed s'.engine s'.disk fj (cj.eraseIdx i) := hs' ▸ hwf
    have hret' : Retired s'.persistManifest.engine fj (cj.eraseIdx i) job.inputs := hs' ▸ hret
    obtain ⟨hremove, hp'⟩ := removeRetired_moves persisted_persistManifest hret'
    exact ⟨.head hmerge (.head (.persist s' hwf'.on_disk hwf'.paths_nodup) hremove), hp'⟩
  · exact removeRetired_moves hp (output_retired h hj)

theorem abortFlush_moves {job : FlushJob} (h : WellFormed s.engine s.disk [(job, built)] cj)
    (hp : Persisted s.engine s.disk) : Leads s (s.abortFlush job) := by
  obtain ⟨f, rest, hfrozen, -, hseq, -⟩ := h.flushing.job
  unfold abortFlush
  generalize he : (fun e : Engine => { e with
      frozen := e.frozen.modify (e.frozen.findIdx (fun f : FrozenMem => f.walSeq = job.walSeq))
        (fun f => { f with building := false }) }) = unmark
  have hnote : Move s (s.modify unmark) := by
    refine .note s _ ?_
    subst he
    exact ⟨rfl, rfl, rfl, by simp [hfrozen, hseq, findIdx_cons], rfl, rfl, rfl⟩
  have hp' : Persisted (s.modify unmark).engine (s.modify unmark).disk := by
    subst he
    exact hp.of_eq rfl rfl rfl
  have hnot : ∀ p ∈ [job.path], p ∉ (s.modify unmark).disk.listed := by
    intro p hmem
    obtain rfl := mem_singleton.mp hmem
    rw [disk_modify, hp.listed]
    intro hin
    have hn := h.nodup
    simp only [reserved, map_cons, map_nil, nodup_append, mem_append,
      mem_singleton] at hn
    exact hn.1.2.2 _ hin _ rfl rfl
  exact ⟨.head hnote (removeFiles_moves hnot), hp'.of_eq rfl rfl (manifest_removeFiles _ _)⟩

theorem write_moves (stamping : Stamping) (sync : Bool) (wall now : UInt64) (key : Bytes) (value : VersionValue)
    (h : WellFormed s.engine s.disk fj cj) (hp : Persisted s.engine s.disk)
    (hpersist : s.engine.opts.ephemeral = false) (habove : s.engine.opts.flushThresholdBytes ≤
        (s.engine.mem.insert key (stamp s.engine.clock wall stamping) value).approxBytes →
      ∀ n ∈ s.disk.listSegments, n < s.engine.nextWalSeq) :
    ∃ s₁ s₂, Move s s₁ ∧ s₁.effects = s.effects ∧ s₁.engine.wal = s.engine.wal ∧
      Moves (s₁.appended ⟨stamp s.engine.clock wall stamping, key, value⟩) s₂ ∧
      (s.write stamping sync wall now key value).1 =
        (if sync then s₂.syncThrough ⟨s.engine.wal.generation, s.engine.wal.writeOffset + 1⟩ else s₂) ∧
      Persisted s₂.engine s₂.disk := by
  have hengine := s.engine_logged stamping wall key value
  have hdisk := s.disk_logged stamping wall key value
  rw [if_neg (by simpa using hpersist)] at hdisk
  have hlogged : Move ((s.modify (fun e => { e with clock := tick e.clock wall stamping })).appended
      ⟨stamp s.engine.clock wall stamping, key, value⟩) (s.logged stamping wall key value) := by
    have heq : s.logged stamping wall key value = ((s.modify (fun e => { e with
        clock := tick e.clock wall stamping })).appended ⟨stamp s.engine.clock wall stamping, key, value⟩).modify
          (fun e => { e with writeSeq := e.writeSeq + 1, readCache := e.readCache.invalidate key }) := by
      simp only [logged, buffered, appendOp, engine_modify, hpersist, Bool.false_eq_true, if_false]
      rfl
    rw [heq]
    exact .note _ _ ⟨rfl, rfl, rfl, rfl, rfl, rfl, rfl⟩
  have hwf : WellFormed (s.logged stamping wall key value).engine (s.logged stamping wall key value).disk fj cj := by
    rw [hengine, hdisk]
    exact h.frame rfl rfl rfl rfl rfl le_rfl (fun _ _ hp _ => hp)
  have hp₁ : Persisted (s.logged stamping wall key value).engine (s.logged stamping wall key value).disk := by
    rw [hengine, hdisk]
    exact hp.of_eq rfl rfl rfl
  obtain ⟨hmoves, hp₂⟩ := maybeFlush_moves hwf hp₁ (by
    rw [hengine, hdisk]
    exact habove)
  refine ⟨s.modify (fun e => { e with clock := tick e.clock wall stamping }), _, ?_, rfl, rfl,
    .head hlogged hmoves, rfl, hp₂⟩
  exact .note s _ ⟨rfl, rfl, rfl, rfl, rfl, rfl, rfl⟩

end Session

namespace Process

theorem exec_moves {p : Process} (h : p.Sound) (hp : Persisted p.engine p.disk) {op : Op}
    (habove : SealsAbove p op) (hop : op.isWrite = false) :
    ∃ (q : Process) (s : Session), p.exec op = q.commit s ∧ q.commits = p.commits ∧ Leads p.session s := by
  have hidle : ∀ e : Engine, SameFiles p.engine e → Leads p.session { p.session with engine := e } :=
    fun e hsame => ⟨.single (.note p.session e hsame), hp.of_eq hsame.l0 hsame.levels rfl⟩
  have hstay : Leads p.session p.session := ⟨.refl, hp⟩
  cases op with
  | write => cases hop
  | sync i =>
    cases hc : p.commits[i]? with
    | none => exact ⟨p, p.session, by simp only [exec, hc]; rfl, rfl, hstay⟩
    | some c =>
      refine ⟨p, p.session.syncThrough c, by simp only [exec, hc], rfl,
        p.session.syncThrough_moves, ?_⟩
      obtain ⟨wal, heng⟩ := p.session.engine_syncThrough
      exact hp.of_eq (by rw [heng]; rfl) (by rw [heng]; rfl) p.session.manifest_syncThrough
  | read key =>
    obtain ⟨cache, hcache⟩ := p.engine.engine_getVersioned
    refine ⟨p, _, rfl, rfl, hidle (p.engine.getVersioned key).2 ?_⟩
    rw [hcache]
    exact ⟨rfl, rfl, rfl, rfl, rfl, rfl, rfl⟩
  | freeze =>
    by_cases heph : p.engine.opts.ephemeral = true
    · exact ⟨p, p.session, by simp only [exec, heph, if_true]; rfl, rfl, hstay⟩
    · exact ⟨p, p.session.freeze, by simp only [exec, heph]; rfl, rfl,
        freeze_moves (habove rfl) hp⟩
  | flush now =>
    refine ⟨p, p.session.flush now, rfl, rfl, flush_moves (s := p.session) h hp ?_⟩
    intro hmem
    exact habove (by simp [Op.seals, show p.engine.mem.isEmpty = false from hmem])
  | takeFlush =>
    cases htake : p.engine.takeFlushJob with
    | none => exact ⟨p, p.session, by simp only [exec, htake]; rfl, rfl, hstay⟩
    | some taken =>
      obtain ⟨job, e⟩ := taken
      obtain ⟨-, f, rest, hfrozen, -, he⟩ := h.flushing.takeFlushJob htake
      refine ⟨{ p with flushJobs := p.flushJobs ++ [(job, none)] }, { p.session with engine := e },
        by simp only [exec, htake]; rfl, rfl, hidle e ?_⟩
      rw [he]
      exact ⟨rfl, rfl, rfl, by simp [hfrozen], rfl, rfl, rfl⟩
  | buildFlush i =>
    simp only [exec]
    split
    · rename_i job hj
      obtain ⟨hjobs, rfl, -⟩ := h.flushJob hj
      refine ⟨_, _, rfl, rfl, .single (.table _ _ ?_), hp.of_eq rfl rfl ?_⟩
      · rw [show p.session.disk = p.disk from rfl, hp.listed]
        intro hin
        have hn := h.nodup
        simp only [reserved, hjobs, map_cons, map_nil, nodup_append, mem_append,
          mem_singleton] at hn
        exact hn.1.2.2 _ hin _ rfl rfl
      · rw [writeTable, disk_emit]
        rfl
    · exact ⟨p, p.session, rfl, rfl, hstay⟩
  | installFlush i =>
    simp only [exec]
    split
    · rename_i job sst hj
      obtain ⟨hjobs, rfl, h⟩ := h.flushJob hj
      exact ⟨_, _, rfl, rfl, installFlush_moves h⟩
    · exact ⟨p, p.session, rfl, rfl, hstay⟩
  | abortFlush i =>
    simp only [exec]
    split
    · rename_i job built hj
      obtain ⟨hjobs, rfl, h⟩ := h.flushJob hj
      exact ⟨_, _, rfl, rfl, abortFlush_moves h hp⟩
    · exact ⟨p, p.session, rfl, rfl, hstay⟩
  | takeCompact now =>
    cases htake : p.engine.takeCompactJob now with
    | none => exact ⟨p, p.session, by simp only [exec, htake]; rfl, rfl, hstay⟩
    | some taken =>
      obtain ⟨job, e⟩ := taken
      refine ⟨{ p with compactJobs := p.compactJobs ++ [(job, none)] },
        { p.session with engine := e }, by simp only [exec, htake]; rfl, rfl, hidle e ?_⟩
      rw [(takeCompactJob_spec htake).1]
      exact ⟨rfl, rfl, rfl, rfl, rfl, rfl, rfl⟩
  | buildCompact i =>
    simp only [exec]
    split
    · rename_i job hj
      split
      · exact ⟨{ p with compactJobs := p.compactJobs.eraseIdx i }, p.session, rfl, rfl, hstay⟩
      · rename_i run hrun
        have hpath : run.path = job.output := by
          obtain ⟨inputs, -, hrun'⟩ := Option.bind_eq_some_iff.mp hrun
          rw [← Option.some.inj hrun']
          rfl
        refine ⟨_, _, rfl, rfl, .single (.table _ _ ?_), hp.of_eq rfl rfl ?_⟩
        · rw [show p.session.disk = p.disk from rfl, hp.listed, hpath]
          intro hin
          exact (output_retired h hj job.output (by simp)).2
            (by simp only [reserved, mem_append]; exact .inl (.inl hin))
        · rw [writeTable, disk_emit]
          rfl
    · exact ⟨p, p.session, rfl, rfl, hstay⟩
  | installCompact i =>
    simp only [exec]
    split
    · rename_i job run hj
      exact ⟨_, _, rfl, rfl, installCompact_moves h hj hp⟩
    · exact ⟨p, p.session, rfl, rfl, hstay⟩
  | setMaintenanceWatermark hlc =>
    obtain ⟨mark, hmark⟩ := p.engine.engine_setMaintenanceWatermark
    refine ⟨p, _, rfl, rfl, hidle (p.engine.setMaintenanceWatermark hlc) ?_⟩
    rw [hmark]
    exact ⟨rfl, rfl, rfl, rfl, rfl, rfl, rfl⟩
  | setTombstoneRetentionMs ms
  | clearReadCache => exact ⟨p, _, rfl, rfl, hidle _ ⟨rfl, rfl, rfl, rfl, rfl, rfl, rfl⟩⟩

end Process

end Skaidb.Storage
