import Skaidb.Storage.Engine.WellFormed

namespace Skaidb.Storage

open Skaidb.Base List Session Engine Disk

def Engine.layers (e : Engine) : List (Layer Bytes Hlc VersionValue) :=
  e.memtables.map Memtable.layer ++ tableLayers e.sstablesNewestFirst

def Engine.frozenMems (e : Engine) : List Memtable := e.frozen.map FrozenMem.mem

-- What maintenance and reads can do to what a read looks at: seal the active memtable, turn
-- the oldest frozen memtable into a table, nothing, rework the tables, or fill the cache.
-- Steps that land a compaction are kept apart from those that touch the cache.
inductive Change (lands : Bool) (e e' : Engine) : Prop
  | freeze (mem : e'.mem = Memtable.new) (frozen : e'.frozenMems = e.frozenMems ++ [e.mem])
      (tables : e'.sstablesNewestFirst = e.sstablesNewestFirst) (cache : e'.readCache = e.readCache)
  | sink (m : Memtable) (rest : List Memtable) (mem : e'.mem = e.mem)
      (frozen : e.frozenMems = m :: rest) (frozen' : e'.frozenMems = rest)
      (tables : tableLayers e'.sstablesNewestFirst = m.layer :: tableLayers e.sstablesNewestFirst)
      (cache : e'.readCache = e.readCache)
  | same (mem : e'.mem = e.mem) (frozen : e'.frozenMems = e.frozenMems)
      (tables : e'.sstablesNewestFirst = e.sstablesNewestFirst) (cache : e'.readCache = e.readCache)
  | compact (landed : lands = true) (mem : e'.mem = e.mem) (frozen : e'.frozenMems = e.frozenMems)
      (tables : Reworks Tombstone (tableLayers e.sstablesNewestFirst)
        (tableLayers e'.sstablesNewestFirst))
      (cache : e'.readCache = e.readCache)
  | look (idle : lands = false) (mem : e'.mem = e.mem) (frozen : e'.frozenMems = e.frozenMems)
      (tables : e'.sstablesNewestFirst = e.sstablesNewestFirst)
      (cache : ∀ key r, e'.readCache.get key = some r → e.readCache.get key = some r ∨
        ((∀ m ∈ e.memtables, m.getEntryVersioned key = none) ∧
          r = firstHit (tableLayers e.sstablesNewestFirst) key))

abbrev Changes (lands : Bool) : Engine → Engine → Prop := Relation.ReflTransGen (Change lands)

theorem Engine.memtables_eq (e : Engine) : e.memtables = e.mem :: e.frozenMems.reverse := by
  simp [memtables, frozenMems]

variable {e e' : Engine}

theorem Change.cached (h : Change lands e e') (hr : e'.readCache.get key = some r) : e.readCache.get key = some r ∨
      lands = false ∧ (∀ m ∈ e.memtables, m.getEntryVersioned key = none) ∧
        r = firstHit (tableLayers e.sstablesNewestFirst) key ∧ e'.sstablesNewestFirst = e.sstablesNewestFirst := by
  cases h with
  | freeze mem frozen tables cache | sink m rest mem frozen frozen' tables cache
  | same mem frozen tables cache | compact landed mem frozen tables cache => exact .inl (cache ▸ hr)
  | look idle mem frozen tables cache =>
    obtain hold | ⟨hmiss, heq⟩ := cache key r hr
    · exact .inl hold
    · exact .inr ⟨idle, hmiss, heq, tables⟩

theorem Change.reworks (h : Change lands e e') : Reworks Tombstone e.layers e'.layers := by
  unfold layers
  rw [e.memtables_eq, e'.memtables_eq]
  cases h with
  | freeze mem frozen tables cache =>
    rw [mem, frozen, tables]
    refine .single ?_
    simpa using Rework.blankIn [] ((e.mem :: e.frozenMems.reverse).map Memtable.layer ++
      tableLayers e.sstablesNewestFirst) Memtable.new.layer Memtable.getEntryVersioned_new
  | sink m rest mem frozen frozen' tables cache =>
    rw [mem, frozen, frozen', tables]
    simpa using Relation.ReflTransGen.refl
  | same mem frozen tables cache => rw [mem, frozen, tables]
  | compact landed mem frozen tables cache =>
    rw [mem, frozen]
    exact tables.lift (_ ++ ·) (fun _ _ hr => hr.prepend _)
  | look idle mem frozen tables cache => rw [mem, frozen, tables]

theorem Changes.reworks (h : Changes lands e e') : Reworks Tombstone e.layers e'.layers := by
  induction h with
  | refl => exact .refl
  | tail _ hstep ih => exact ih.trans hstep.reworks

-- The inline compactor writes the merged table under the next number and swaps
-- it in for its inputs.
inductive MergeStep (s : Session) : Session → Prop
  | mk (t : SsTable) (l0 levels : List SsTable) (path : t.path = s.engine.nextSeq)
      (rework : Reworks Tombstone (tableLayers s.engine.sstablesNewestFirst)
        (tableLayers (l0 ++ levels))) :
      MergeStep s ((s.writeTable t).modify (fun e => { e with l0, levels, nextSeq := e.nextSeq + 1 }))

abbrev MergeSteps : Session → Session → Prop := Relation.ReflTransGen MergeStep

variable {s : Session} {s' : Session}

theorem MergeSteps.changes (h : MergeSteps s s') : Changes true s.engine s'.engine := by
  induction h with
  | refl => exact .refl
  | tail _ hstep ih =>
    obtain ⟨t, l0, levels, -, rework⟩ := hstep
    exact ih.tail (.compact rfl rfl rfl rework rfl)

namespace Session

variable (s : Session)

@[simp] theorem disk_emit (e : Effect) : (s.emit e).disk = s.disk.apply e :=
  applyAll_concat s.start s.effects e

@[simp] theorem engine_emit (e : Effect) : (s.emit e).engine = s.engine := rfl

@[simp] theorem disk_emitAll : (s.emitAll es).disk = s.disk.applyAll es :=
  applyAll_append s.start

@[simp] theorem engine_emitAll : (s.emitAll es).engine = s.engine := rfl

@[simp] theorem disk_modify (f : Engine → Engine) : (s.modify f).disk = s.disk := rfl

@[simp] theorem engine_modify (f : Engine → Engine) : (s.modify f).engine = f s.engine := rfl

@[simp] theorem disk_setEngine {e : Engine} :
    ({ s with engine := e } : Session).disk = s.disk := rfl

end Session

theorem Disk.tables_renameWal (d : Disk) (seq : Nat) : (d.apply (.renameWal seq)).tables = d.tables := by
  simp only [apply]
  cases d.wal <;> rfl

theorem Disk.tables_removeSegments (d : Disk) (seqs : List Nat) :
    (d.applyAll (seqs.map Effect.removeSegment)).tables = d.tables := by
  induction seqs generalizing d with
  | nil => rfl
  | cons n seqs ih => exact ih (d.apply (.removeSegment n))

theorem Disk.get?_removeTables (d : Disk) (paths : List Nat) (p : Nat) (hp : p ∉ paths) :
    (d.applyAll (paths.map Effect.removeTable)).tables.get? p = d.tables.get? p := by
  induction paths generalizing d with
  | nil => rfl
  | cons q paths ih =>
    obtain ⟨hne, hp⟩ := not_or.mp (mt mem_cons.mpr hp)
    calc (d.applyAll ((q :: paths).map Effect.removeTable)).tables.get? p
        = (d.apply (.removeTable q)).tables.get? p := ih (d.apply (.removeTable q)) hp
      _ = d.tables.get? p := by
          simp only [apply, OrdMap.get?_erase, if_neg hne]

variable {cj : CompactJobs} (lands : Bool)

namespace Session

theorem engine_freeze {s : Session} : s.freeze.engine = { s.engine with
      wal := { generation := s.engine.wal.generation + 1, writeOffset := 0, synced := 0 }
      mem := Memtable.new
      frozen := s.engine.frozen ++
        [⟨s.engine.mem, s.engine.nextWalSeq, s.engine.mem.maxHlc, false⟩]
      nextWalSeq := s.engine.nextWalSeq + 1 } := rfl

theorem tables_freeze (s : Session) : s.freeze.disk.tables = s.disk.tables := by
  simp only [freeze, rotate, disk_modify, disk_emit]
  exact tables_renameWal (s.disk.apply .syncWal) s.engine.nextWalSeq

abbrev Evolves (lands : Bool) (s s' : Session) (fj : FlushJobs) (cj : CompactJobs) : Prop :=
  WellFormed s'.engine s'.disk fj cj ∧ Changes lands s.engine s'.engine

theorem freeze_spec (h : WellFormed s.engine s.disk fj cj) : Evolves lands s s.freeze fj cj := by
  constructor
  · exact h.freeze rfl rfl rfl rfl rfl rfl s.tables_freeze
  · refine .single (.freeze rfl ?_ rfl rfl)
    rw [engine_freeze]
    simp [frozenMems]

@[simp] theorem engine_dropFlushed {s : Session} : (s.dropFlushed f).engine = s.engine := by
  unfold dropFlushed
  split_ifs
  · rfl
  · rfl

@[simp] theorem tables_dropFlushed {s : Session} : (s.dropFlushed f).disk.tables = s.disk.tables := by
  unfold dropFlushed
  split_ifs
  · rw [dropSegmentsThrough, disk_emitAll, tables_removeSegments]
  · rfl

variable {job : FlushJob}

section

variable (s : Session) (sst : SsTable) (hfrozen : s.engine.frozen = f :: rest)
  (hseq : job.walSeq = f.walSeq)

include hfrozen hseq

theorem installFlush_eq :
    s.installFlush job sst =
      (((s.modify (fun e => { e with l0 := sst :: e.l0 })).persistManifest).modify
        (fun e => { e with frozen := rest })).dropFlushed f := by
  have hfind : (s.engine.frozen.find? (fun f => f.walSeq = job.walSeq)) = some f := by
    simp [hfrozen, hseq]
  have herase : s.engine.frozen.eraseP (fun f => f.walSeq = job.walSeq) = rest := by
    simp [hfrozen, hseq]
  simp only [installFlush, persistManifest, engine_emit, engine_modify, hfind]
  simp only [modify, emit, herase]

theorem engine_installFlush :
    (s.installFlush job sst).engine = { s.engine with l0 := sst :: s.engine.l0, frozen := rest } := by
  rw [s.installFlush_eq sst hfrozen hseq, engine_dropFlushed]
  rfl

theorem tables_installFlush : (s.installFlush job sst).disk.tables = s.disk.tables := by
  rw [s.installFlush_eq sst hfrozen hseq, tables_dropFlushed, disk_modify, persistManifest, disk_emit]
  rfl

end

theorem installFlush_spec (h : WellFormed s.engine s.disk [(job, some sst)] cj) :
    Evolves lands s (s.installFlush job sst) [] cj := by
  obtain ⟨f, rest, hfrozen, hmem, hseq, -⟩ := h.flushing.job
  have heng := s.engine_installFlush sst hfrozen hseq
  have htables := s.tables_installFlush sst hfrozen hseq
  refine ⟨h.push hfrozen (by rw [heng]) (by rw [heng]) (by rw [heng]) (by rw [heng]) (by rw [heng])
    (by rw [heng]) htables, .single ?_⟩
  refine .sink f.mem (rest.map FrozenMem.mem) (by rw [heng]) ?_ ?_ ?_ (by rw [heng])
  · simp [frozenMems, hfrozen]
  · rw [heng]
    rfl
  · rw [heng]
    simp [sstablesNewestFirst, h.flush_layer hmem]

theorem abortFlush_spec (h : WellFormed s.engine s.disk [(job, built)] cj) :
    Evolves lands s (s.abortFlush job) [] cj := by
  obtain ⟨f, rest, hfrozen, -, hseq, -⟩ := h.flushing.job
  have heng : (s.abortFlush job).engine =
      { s.engine with frozen := { f with building := false } :: rest } := by
    simp [abortFlush, removeFiles, hfrozen, hseq, findIdx_cons]
  refine ⟨h.abortFlush hfrozen heng ?_, ?_⟩
  · simp only [abortFlush, removeFiles, disk_emitAll, disk_modify]
    rfl
  · exact .single (.same (by rw [heng]) (by rw [heng]; simp [frozenMems, hfrozen])
      (by rw [heng]; rfl) (by rw [heng]))

theorem takeFlush_built (h : WellFormed s.engine s.disk fj cj) (htake : s.engine.takeFlushJob = some (job, e)) :
    WellFormed e (({ s with engine := e } : Session).writeTable (buildFlush job)).disk
      [(job, some (buildFlush job))] cj := by
  obtain ⟨rfl, -⟩ := h.flushing.takeFlushJob htake
  exact (h.takeFlush htake).buildFlush (by simp only [writeTable, disk_emit]; rfl)

theorem drainFrozen_spec (h : WellFormed s.engine s.disk fj cj) :
    Evolves lands s (drainFrozen fuel s) fj cj := by
  induction fuel generalizing s with
  | zero => exact ⟨h, .refl⟩
  | succ fuel ih =>
    rw [drainFrozen]
    cases htake : s.engine.takeFlushJob with
    | none => exact ⟨h, .refl⟩
    | some taken =>
      obtain ⟨job, e⟩ := taken
      obtain ⟨rfl, f, rest, hfrozen, -, he⟩ := h.flushing.takeFlushJob htake
      obtain ⟨hwf, hch⟩ := installFlush_spec lands
        (s := ({ s with engine := e } : Session).writeTable (buildFlush job)) (takeFlush_built h htake)
      obtain ⟨hwf', hch'⟩ := ih hwf
      refine ⟨hwf', ?_⟩
      have htaken : Changes lands s.engine e := by
        refine .single (.same ?_ ?_ ?_ ?_)
        · rw [he]
        · rw [he]
          simp [frozenMems, hfrozen]
        · rw [he]
          rfl
        · rw [he]
      exact htaken.trans (hch.trans hch')

def Retired (e : Engine) (fj : FlushJobs) (cj : CompactJobs) (paths : List Nat) : Prop :=
  ∀ p ∈ paths, p < e.nextSeq ∧ p ∉ reserved e fj cj

theorem retired_of_merge {out : SsTable} (h : WellFormed e d fj cj)
    (hspan : Span e.l0 e.levels deepest i0 i1 newer before behind) (hl0 : e'.l0 = newer)
    (hlevels : e'.levels = place i0 i1 before behind out) (hseq : e.nextSeq ≤ e'.nextSeq)
    (hne : ∀ t ∈ i0 ++ i1, t.path ≠ out.path) : Retired e' fj cj ((i0 ++ i1).map SsTable.path) := by
  intro p hp
  obtain ⟨t, ht, rfl⟩ := mem_map.mp hp
  have hmem : t.path ∈ e.paths := mem_map_of_mem (hspan.mem_tables ht)
  refine ⟨(h.below _ (by simp [reserved, hmem])).trans_le hseq, ?_⟩
  have hgone := merged_gone hspan hl0 hlevels h.paths_nodup ht (hne t ht)
  have hn := h.nodup
  simp only [reserved, nodup_append, mem_append] at hn ⊢
  rintro ((hp | hp) | hp)
  · exact hgone hp
  · exact hn.1.2.2 _ hmem _ hp rfl
  · exact hn.2.2 _ (.inl hmem) _ hp rfl

theorem mergeRun_eq {s : Session} :
    s.mergeRun withL0 level width deepest none keepAfter =
      (let e := s.engine
       let sources := (if withL0 then e.l0 else []) ++ (e.levels.drop level).take width
       let out := mergeWrite e.nextSeq sources deepest none keepAfter
       ({ s.writeTable out with
          engine := { e with
            nextSeq := e.nextSeq + 1
            l0 := if withL0 then [] else e.l0
            levels := e.levels.take level ++ out :: e.levels.drop (level + width) } },
        sources.map SsTable.path)) := rfl

-- Merges leave the tables `old` behind. A number that is free stays free.
structure Merges (fj : FlushJobs) (cj : CompactJobs) (s s' : Session) (old : List Nat) : Prop where
  wellFormed : WellFormed s'.engine s'.disk fj cj
  steps : MergeSteps s s'
  nextSeq : s.engine.nextSeq ≤ s'.engine.nextSeq
  retired : Retired s'.engine fj cj old
  free : ∀ p, p < s.engine.nextSeq → p ∉ reserved s.engine fj cj → p ∉ reserved s'.engine fj cj

theorem Merges.refl (h : WellFormed s.engine s.disk fj cj) : Merges fj cj s s [] :=
  ⟨h, .refl, le_rfl, by simp [Retired], fun _ _ hnot => hnot⟩

theorem Merges.trans (h : Merges fj cj s s₁ old₁) (h' : Merges fj cj s₁ s₂ old₂) :
    Merges fj cj s s₂ (old₁ ++ old₂) := by
  refine ⟨h'.wellFormed, h.steps.trans h'.steps, h.nextSeq.trans h'.nextSeq, ?_, ?_⟩
  · intro p hp
    obtain hp | hp := mem_append.mp hp
    · obtain ⟨hlt, hnot⟩ := h.retired p hp
      exact ⟨hlt.trans_le h'.nextSeq, h'.free p hlt hnot⟩
    · exact h'.retired p hp
  · intro p hp hnot
    exact h'.free p (hp.trans_le h.nextSeq) (h.free p hp hnot)

theorem mergeRun_spec (h : WellFormed s.engine s.disk fj cj)
    (hwhere : level = 0 ∨ (withL0 = false ∧ level < s.engine.levels.length ∧ 0 < width))
    (hdeep : deepest = true → s.engine.levels.drop (level + width) = [])
    (hrun : s.mergeRun withL0 level width deepest none keepAfter = (s', old)) : Merges fj cj s s' old := by
  rw [mergeRun_eq] at hrun
  obtain ⟨rfl, rfl⟩ := Prod.mk.inj hrun
  generalize hi0 : (if withL0 then s.engine.l0 else []) = i0
  generalize hi1 : (s.engine.levels.drop level).take width = i1
  generalize hnewer : (if withL0 then [] else s.engine.l0) = newer
  have hm : MergeOf (i0 ++ i1) deepest (mergeWrite s.engine.nextSeq (i0 ++ i1) deepest none keepAfter) :=
    mergeOf_mergeWrite _ _ _ _
  have hpath : (mergeWrite s.engine.nextSeq (i0 ++ i1) deepest none keepAfter).path = s.engine.nextSeq :=
    rfl
  generalize mergeWrite s.engine.nextSeq (i0 ++ i1) deepest none keepAfter = out at hm hpath ⊢
  have hspan : Span s.engine.l0 s.engine.levels deepest i0 i1 newer (s.engine.levels.take level)
      (s.engine.levels.drop (level + width)) := by
    refine ⟨?_, ?_, ?_, ?_⟩
    · subst hi0 hnewer
      cases withL0 <;> simp
    · rw [← hi1, append_assoc, ← drop_drop, take_append_drop, take_append_drop]
    · intro hne
      obtain rfl | ⟨rfl, -, -⟩ := hwhere
      · simp
      · exact absurd (by simpa using hi0.symm) hne
    · intro hd
      rw [hdeep hd]
      simp
  have hplace : s.engine.levels.take level ++ out :: s.engine.levels.drop (level + width) =
      place i0 i1 (s.engine.levels.take level) (s.engine.levels.drop (level + width)) out := by
    unfold place
    obtain rfl | ⟨rfl, hlt, hw⟩ := hwhere
    · simp
    · have hne : i1 ≠ [] := by
        rw [← hi1]
        apply ne_nil_of_length_pos
        rw [length_take, length_drop]
        omega
      have hnil : i0 = [] := by simpa using hi0.symm
      rw [if_neg (by simp [hne, hnil])]
  have hfresh : out.path ∉ reserved s.engine fj cj := by
    rw [hpath]
    exact fun hmem => lt_irrefl _ (h.below _ hmem)
  rw [hplace]
  have hdisk : ({ s.writeTable out with
      engine := { s.engine with
        nextSeq := s.engine.nextSeq + 1
        l0 := newer
        levels := place i0 i1 (s.engine.levels.take level) (s.engine.levels.drop (level + width)) out } }
        : Session).disk.tables = s.disk.tables.insert out.path out.entries := by
    rw [disk_setEngine, writeTable, disk_emit]
    rfl
  refine ⟨?_, ?_, Nat.le_succ _, ?_, ?_⟩
  · refine h.merge hspan rfl rfl hm rfl rfl rfl (Nat.le_succ _) (hpath ▸ Nat.lt_succ_self _) hfresh ?_ ?_ ?_
    · intro j hj hmem
      rw [hpath] at hmem
      exact lt_irrefl _ ((h.compacting j hj).inputs_old _ hmem).1
    · intro p entries hp hmem
      have hne : p ≠ out.path := fun heq => hfresh (heq ▸ hmem)
      rw [hdisk, OrdMap.get?_insert, if_neg hne]
      exact hp
    · rw [hdisk, OrdMap.get?_insert, if_pos rfl]
  · exact .single (.mk out newer _ hpath (hspan.reworks hm))
  · refine retired_of_merge h hspan rfl rfl (Nat.le_succ _) ?_
    intro t ht
    have hmem : t.path ∈ s.engine.paths := mem_map_of_mem (hspan.mem_tables ht)
    have hlt := h.below t.path (by simp [reserved, hmem])
    rw [hpath]
    exact hlt.ne
  · intro p hlt hnot hmem
    obtain rfl | hmem := mem_reserved_merge hspan rfl rfl hmem
    · exact lt_irrefl _ (hpath ▸ hlt)
    · exact hnot hmem

theorem cascade_spec (h : WellFormed s.engine s.disk fj cj)
    (hrun : cascade none keepAfter fuel level s = (s', old)) : Merges fj cj s s' old := by
  induction fuel generalizing level s old with
  | zero =>
    obtain ⟨rfl, rfl⟩ := Prod.mk.inj hrun
    exact .refl h
  | succ fuel ih =>
    rw [cascade] at hrun
    cases hget : s.engine.levels[level]? with
    | none =>
      rw [hget] at hrun
      obtain ⟨rfl, rfl⟩ := Prod.mk.inj hrun
      exact .refl h
    | some t =>
      have hlt : level < s.engine.levels.length := (List.getElem?_eq_some_iff.mp hget).1
      rw [hget] at hrun
      simp only at hrun
      by_cases hcap : t.len ≤ s.engine.levelCapacity level
      · rw [if_pos hcap] at hrun
        obtain ⟨rfl, rfl⟩ := Prod.mk.inj hrun
        exact .refl h
      · -- One merge, then the rest of the cascade from the next level on.
        rw [if_neg hcap] at hrun
        generalize hmerge : s.mergeRun false level
          (if decide (level + 1 < s.engine.levels.length) = true then 2 else 1)
          (!decide (level + 1 < s.engine.levels.length)) none keepAfter = merged at hrun
        obtain ⟨s₁, old₁⟩ := merged
        generalize hrest : cascade none keepAfter fuel (level + 1) s₁ = rest at hrun
        obtain ⟨rfl, rfl⟩ := Prod.mk.inj hrun
        have hfirst := mergeRun_spec h (.inr ⟨rfl, hlt, by split_ifs <;> omega⟩)
          (by
            intro hlast
            simp only [Bool.not_eq_true', decide_eq_false_iff_not] at hlast
            apply drop_eq_nil_of_le
            rw [if_neg (by simpa using hlast)]
            omega) hmerge
        exact hfirst.trans (ih hfirst.wellFormed hrest)

theorem removeFiles_spec {paths : List Nat}
    (h : WellFormed s.engine s.disk fj cj) (hret : Retired s.engine fj cj paths) :
    WellFormed (s.removeFiles paths).engine (s.removeFiles paths).disk fj cj := by
  refine h.frame rfl rfl rfl rfl rfl le_rfl ?_
  intro p entries hp hmem
  rw [removeFiles, disk_emitAll, get?_removeTables _ _ _ (fun hin => (hret p hin).2 hmem)]
  exact hp

theorem persistManifest_spec (h : WellFormed s.engine s.disk fj cj) :
    WellFormed s.persistManifest.engine s.persistManifest.disk fj cj := by
  refine h.frame rfl rfl rfl rfl rfl le_rfl ?_
  intro p entries hp _
  rw [persistManifest, disk_emit]
  exact hp

variable (now : UInt64)

section

variable (h : WellFormed s.engine s.disk fj cj)

include h

theorem maybeCompact_merges :
    s.maybeCompact now = s ∨ ∃ s' old, MergeSteps s s' ∧ WellFormed s'.engine s'.disk fj cj ∧
      Retired s'.engine fj cj old ∧ s.maybeCompact now = s'.persistManifest.removeFiles old := by
  unfold maybeCompact
  split_ifs with htrigger
  · exact .inl rfl
  · rw [h.ttl]
    simp only [Option.map_none]
    generalize hmerge : s.mergeRun true 0 1 (decide (s.engine.levels.length ≤ 1)) none
      (now.toNat - s.engine.tombstoneRetentionMs) = merged
    obtain ⟨s₁, old₁⟩ := merged
    generalize hrest : cascade none (now.toNat - s.engine.tombstoneRetentionMs)
      (s₁.engine.levels.length + 1) 0 s₁ = rest
    obtain ⟨s₂, old₂⟩ := rest
    have hfirst := mergeRun_spec h (.inl rfl)
      (by
        intro hdeep
        apply drop_eq_nil_of_le
        simpa using hdeep) hmerge
    have hall := hfirst.trans (cascade_spec hfirst.wellFormed hrest)
    exact .inr ⟨s₂, old₁ ++ old₂, hall.steps, hall.wellFormed, hall.retired, rfl⟩

theorem maybeCompact_spec : Evolves true s (s.maybeCompact now) fj cj := by
  obtain heq | ⟨s', old, hmerge, hwf, hret, heq⟩ := maybeCompact_merges now h
  · rw [heq]
    exact ⟨h, .refl⟩
  · have hch := MergeSteps.changes hmerge
    rw [heq]
    exact ⟨removeFiles_spec (persistManifest_spec hwf) hret, hch⟩

theorem flush_spec : Evolves true s (s.flush now) fj cj := by
  unfold flush
  split_ifs with heph hempty
  · exact ⟨h, .refl⟩
  · obtain ⟨hwf₁, hch₁⟩ := drainFrozen_spec true h
    obtain ⟨hwf₂, hch₂⟩ := maybeCompact_spec now hwf₁
    exact ⟨hwf₂, hch₁.trans hch₂⟩
  · obtain ⟨hwf₀, hch₀⟩ := freeze_spec true h
    obtain ⟨hwf₁, hch₁⟩ := drainFrozen_spec true hwf₀
    obtain ⟨hwf₂, hch₂⟩ := maybeCompact_spec now hwf₁
    exact ⟨hwf₂, hch₀.trans (hch₁.trans hch₂)⟩

theorem maybeFlush_spec : Evolves (decide (4 ≤ s.engine.frozen.length)) s (s.maybeFlush now) fj cj := by
  unfold maybeFlush
  split_ifs with hsmall hmany
  · exact ⟨h, .refl⟩
  · rw [decide_eq_true hmany]
    exact flush_spec now h
  · exact freeze_spec _ h

end

theorem reserved_eraseIdx (e : Engine) (fj : FlushJobs)
    {j : CompactJob × Option SsTable} (hj : cj[i]? = some j) :
    (reserved e fj cj).Perm (j.1.output :: reserved e fj (cj.eraseIdx i)) := by
  obtain ⟨hi, rfl⟩ := List.getElem?_eq_some_iff.mp hj
  have hperm := (getElem_cons_eraseIdx_perm hi).map (fun j => j.1.output)
  exact (hperm.symm.append_left _).trans perm_middle

theorem output_retired (h : WellFormed e d fj cj) (hj : cj[i]? = some j) :
    Retired e fj (cj.eraseIdx i) [j.1.output] := by
  intro p hp
  obtain rfl := mem_singleton.mp hp
  have hperm := reserved_eraseIdx e fj hj
  exact ⟨h.below _ (hperm.mem_iff.mpr (by simp)), (nodup_cons.mp (hperm.nodup_iff.mp h.nodup)).1⟩

variable {job : CompactJob}

theorem placeRun_spec (h : WellFormed e d fj cj) (hj : cj[i]? = some (job, some run))
    (hpresent : e.inputsPresent job.inputs = true) :
    ∃ l0 levels, e.placeRun job.inputs run = { e with l0, levels } ∧
      WellFormed { e with l0, levels } d fj (cj.eraseIdx i) ∧
      Reworks Tombstone (tableLayers e.sstablesNewestFirst) (tableLayers (l0 ++ levels)) ∧
      Retired { e with l0, levels } fj (cj.eraseIdx i) job.inputs := by
  have hmem : (job, some run) ∈ cj := mem_of_getElem? hj
  have hc := h.compacting _ hmem
  have hpath : run.path = job.output := hc.output_path run rfl
  have hsub : (cj.eraseIdx i).Sublist cj := eraseIdx_sublist ..
  have hwf := h.dropCompact hsub
  obtain ⟨hlt, hfresh⟩ := output_retired h hj job.output (by simp)
  obtain ⟨i0, i1, newer, before, behind, hspan, hpaths, hbuilt⟩ := hc.span hpresent
  have hm := hbuilt run rfl
  refine ⟨newer, place i0 i1 before behind run, ?_, ?_, hspan.reworks hm, ?_⟩
  · rw [← placeRun_eq hspan h.paths_nodup, hpaths]
  · refine hwf.merge hspan rfl rfl hm rfl rfl rfl le_rfl (hpath ▸ hlt) (hpath ▸ hfresh) ?_
      (fun _ _ hp _ => hp) (h.compact_built _ hmem run rfl)
    intro j hjmem hin
    refine ((h.compacting j (hsub.subset hjmem)).inputs_old _ hin).2.2 ?_
    rw [hpath]
    exact mem_map_of_mem hmem
  · rw [← hpaths]
    refine retired_of_merge hwf hspan rfl rfl le_rfl ?_
    intro t ht heq
    refine hfresh ?_
    rw [← hpath, ← heq]
    simp only [reserved, mem_append]
    exact .inl (.inl (mem_map_of_mem (hspan.mem_tables ht)))

theorem installCompact_spec (h : WellFormed s.engine s.disk fj cj) (hj : cj[i]? = some (job, some run)) :
    Evolves true s (s.installCompact job run) fj (cj.eraseIdx i) := by
  unfold installCompact
  split_ifs with hpresent
  · obtain ⟨l0, levels, heq, hwf, hrework, hret⟩ := placeRun_spec h hj hpresent
    unfold modify
    dsimp only
    rw [heq]
    refine ⟨removeFiles_spec (persistManifest_spec hwf) hret, .single ?_⟩
    exact .compact rfl rfl rfl hrework rfl
  · exact ⟨removeFiles_spec (h.dropCompact (eraseIdx_sublist ..)) (output_retired h hj), .refl⟩

private theorem mapM_path {read : Nat → Option SsTable} {tables : List SsTable}
    (h : ∀ t ∈ tables, read t.path = some t) : (tables.map SsTable.path).mapM read = some tables := by
  induction tables with
  | nil => rfl
  | cons t tables ih =>
    rw [map_cons, mapM_cons, h t (by simp), ih (fun t ht => h t (by simp [ht]))]
    rfl

private theorem map_set_same {α β : Type*} {f : α → β} {l : List α} {a b : α}
    (h : l[i]? = some a) (hf : f b = f a) : (l.set i b).map f = l.map f := by
  rw [map_set, hf]
  obtain ⟨hi, rfl⟩ := List.getElem?_eq_some_iff.mp h
  rw [← getElem_map f (h := by simpa using hi), set_getElem_self]

theorem buildCompact_spec (h : WellFormed s.engine s.disk fj cj)
    (hj : cj[i]? = some (job, none)) (hrun : s.buildCompact job = some run) :
    WellFormed s.engine (s.writeTable run).disk fj (cj.set i (job, some run)) := by
  have hmem : (job, none) ∈ cj := mem_of_getElem? hj
  have hperm := reserved_eraseIdx s.engine fj hj
  have hfresh : job.output ∉ reserved s.engine fj (cj.eraseIdx i) :=
    (nodup_cons.mp (hperm.nodup_iff.mp h.nodup)).1
  obtain ⟨inputs, hread, hrun⟩ := Option.bind_eq_some_iff.mp hrun
  have hpath : run.path = job.output := by rw [← Option.some.inj hrun]; rfl
  have hout : (cj.set i (job, some run)).map (fun j => j.1.output) = cj.map (fun j => j.1.output) :=
    map_set_same hj rfl
  have hres : reserved s.engine fj (cj.set i (job, some run)) = reserved s.engine fj cj := by
    unfold reserved
    rw [hout]
  have hget : ∀ p entries, s.disk.tables.get? p = some entries → p ∈ reserved s.engine fj (cj.eraseIdx i) →
      (s.writeTable run).disk.tables.get? p = some entries := by
    intro p entries hp hmem
    have hne : p ≠ job.output := fun heq => hfresh (heq ▸ hmem)
    rw [writeTable, disk_emit]
    simp only [apply, OrdMap.get?_insert, hpath, if_neg hne]
    exact hp
  obtain ⟨htab, hflush, hcompact⟩ := (h.dropCompact (eraseIdx_sublist cj i)).disk_kept hget
  refine ⟨h.ttl, hres ▸ h.nodup, fun p hp => h.below p (hres ▸ hp), htab, hflush, ?_, h.seqs,
    h.seqs_below, h.flushing, ?_⟩
  · intro j hjmem run' hrun'
    obtain hjmem | rfl := mem_or_eq_of_mem_set hjmem
    · -- Another job's output has another number.
      obtain ⟨hi, hji⟩ := List.getElem?_eq_some_iff.mp hj
      obtain heq | hother := mem_cons.mp ((getElem_cons_eraseIdx_perm hi).mem_iff.mpr hjmem)
      · rw [heq, hji] at hrun'
        cases hrun'
      · exact hcompact j hother run' hrun'
    · obtain rfl := Option.some.inj hrun'
      rw [writeTable, disk_emit]
      simp only [apply, OrdMap.get?_insert, if_pos]
  · intro j hjmem
    obtain hjmem | rfl := mem_or_eq_of_mem_set hjmem
    · exact (h.compacting j hjmem).shrink (fun p hp => hp) (fun p hp => hout ▸ hp)
    · have hc : Compacting s.engine fj (cj.set i (job, some run)) (job, none) :=
        (h.compacting _ hmem).shrink (fun p hp => hp) (fun p hp => hout ▸ hp)
      refine ⟨hc.no_expiry, hc.inputs_old, ?_, ?_⟩
      · intro run' hrun'
        rw [← Option.some.inj hrun']
        exact hpath
      · intro hpresent
        obtain ⟨i0, i1, newer, before, behind, hspan, hpaths, -⟩ := hc.span hpresent
        refine ⟨i0, i1, newer, before, behind, hspan, hpaths, ?_⟩
        intro run' hrun'
        -- The builder read the very tables the engine holds.
        have hinputs : inputs = i0 ++ i1 := by
          have hall : ∀ t ∈ i0 ++ i1, s.disk.readTable t.path = some t := by
            intro t ht
            rw [readTable, h.on_disk t (hspan.mem_tables ht)]
            rfl
          have hread' := mapM_path hall
          rw [hpaths] at hread'
          exact Option.some.inj (hread.symm.trans hread')
        have hexp : job.expireBefore = none := hc.no_expiry
        rw [hinputs, hexp] at hrun
        rw [← Option.some.inj hrun', ← Option.some.inj hrun]
        exact mergeOf_mergeWrite _ _ _ _

end Session

theorem Engine.engine_getVersioned (e : Engine) :
    ∃ cache, (e.getVersioned key).2 = { e with readCache := cache } := by
  unfold getVersioned
  split
  · exact ⟨_, rfl⟩
  · split <;> exact ⟨_, rfl⟩

theorem Engine.engine_setMaintenanceWatermark (e : Engine) :
    ∃ mark, e.setMaintenanceWatermark hlc = { e with maintWatermark := mark } := by
  unfold setMaintenanceWatermark
  split_ifs
  · exact ⟨_, rfl⟩
  · exact ⟨_, rfl⟩

theorem Engine.getVersioned_change (e : Engine) : Changes false e (e.getVersioned key).2 := by
  unfold getVersioned
  cases hmem : e.memtables.findSome? (fun m => m.getEntryVersioned key) with
  | some v => exact .refl
  | none =>
    cases hcache : e.readCache.get key with
    | some cached => exact .refl
    | none =>
      refine .single (.look rfl rfl rfl rfl ?_)
      intro other r hr
      obtain ⟨rfl, rfl⟩ | hold := ReadCache.get_insert hr
      · refine .inr ⟨?_, ?_⟩
        · simpa using hmem
        · simp only [firstHit, tableLayers, findSome?_map]
          rfl
      · exact .inl hold

def Engine.applyWrite (e : Engine) (key : Bytes) (hlc : Hlc) (value : VersionValue) : Engine :=
  { e with mem := e.mem.insert key hlc value, readCache := e.readCache.invalidate key }

namespace Session

theorem engine_syncThrough (s : Session) :
    ∃ wal, (s.syncThrough commit).engine = { s.engine with wal } := by
  unfold syncThrough
  dsimp only
  split_ifs
  · exact ⟨s.engine.wal, rfl⟩
  · exact ⟨_, rfl⟩

theorem tables_syncThrough {s : Session} : (s.syncThrough commit).disk.tables = s.disk.tables := by
  unfold syncThrough
  dsimp only
  split_ifs
  · rfl
  · rw [disk_modify, disk_emit]
    rfl

theorem syncThrough_spec (h : WellFormed s.engine s.disk fj cj) :
    Evolves lands s (s.syncThrough commit) fj cj := by
  obtain ⟨wal, heng⟩ := s.engine_syncThrough
  unfold Evolves
  rw [heng]
  refine ⟨h.frame rfl rfl rfl rfl rfl le_rfl ?_, .single (.same rfl rfl rfl rfl)⟩
  intro p entries hp _
  rw [tables_syncThrough]
  exact hp

def buffered (s : Session) (key : Bytes) (hlc : Hlc) (value : VersionValue) : Session :=
  (s.appendOp ⟨hlc, key, value⟩).1.modify (fun e =>
    { e with
      mem := e.mem.insert key hlc value
      writeSeq := e.writeSeq + 1
      readCache := e.readCache.invalidate key })

section Logged

variable (s : Session) (stamping : Stamping) (sync : Bool) (wall now : UInt64) (key : Bytes) (value : VersionValue)

-- The record is in the log and in the memtable; a full memtable is not sealed yet.
def logged : Session :=
  (s.modify (fun e => { e with clock := tick e.clock wall stamping })).buffered key
    (stamp s.engine.clock wall stamping) value

theorem engine_logged : (s.logged stamping wall key value).engine =
    { s.engine with
      clock := tick s.engine.clock wall stamping
      wal := { s.engine.wal with writeOffset := s.engine.wal.writeOffset + 1 }
      mem := s.engine.mem.insert key (stamp s.engine.clock wall stamping) value
      writeSeq := s.engine.writeSeq + 1
      readCache := s.engine.readCache.invalidate key } := by
  rw [logged, buffered, engine_modify, appendOp]
  split_ifs <;> rfl

theorem disk_logged : (s.logged stamping wall key value).disk = if s.engine.opts.ephemeral then s.disk
    else s.disk.apply (.appendWal ⟨stamp s.engine.clock wall stamping, key, value⟩) := by
  unfold logged buffered appendOp
  cases heph : s.engine.opts.ephemeral <;> simp [heph]

theorem tables_logged : (s.logged stamping wall key value).disk.tables = s.disk.tables := by
  rw [disk_logged]
  split_ifs <;> rfl

variable {s stamping sync wall now key value}

-- What holds once a logged record's memtable has been sealed if full, and survives a
-- sync, holds after the write.
theorem write_rule {P : Session → Prop} (hlogged : P ((s.logged stamping wall key value).maybeFlush now))
    (hsync : ∀ t commit, P t → P (t.syncThrough commit)) : P (s.write stamping sync wall now key value).1 := by
  cases sync with
  | true => exact hsync _ _ hlogged
  | false => exact hlogged

theorem write_spec (h : WellFormed s.engine s.disk fj cj) :
    WellFormed (s.write stamping sync wall now key value).1.engine
      (s.write stamping sync wall now key value).1.disk fj cj ∧ Changes (decide (4 ≤ s.engine.frozen.length))
      (s.engine.applyWrite key (stamp s.engine.clock wall stamping) value)
      (s.write stamping sync wall now key value).1.engine := by
  refine write_rule (P := fun t => WellFormed t.engine t.disk fj cj ∧ Changes _ _ t.engine) ?_ ?_
  · have h₁ : WellFormed (s.logged stamping wall key value).engine (s.logged stamping wall key value).disk fj cj := by
      rw [engine_logged]
      refine h.frame rfl rfl rfl rfl rfl le_rfl ?_
      intro p entries hp _
      rw [tables_logged]
      exact hp
    obtain ⟨hwf, hch⟩ := maybeFlush_spec now h₁
    have hfrozen : (s.logged stamping wall key value).engine.frozen = s.engine.frozen := by rw [engine_logged]
    have hsame : Change (decide (4 ≤ s.engine.frozen.length))
        (s.engine.applyWrite key (stamp s.engine.clock wall stamping) value)
        (s.logged stamping wall key value).engine := by
      rw [engine_logged]
      exact .same rfl rfl rfl rfl
    rw [hfrozen] at hch
    exact ⟨hwf, .head hsame hch⟩
  · rintro t commit ⟨hwf, hch⟩
    obtain ⟨hwf', hch'⟩ := syncThrough_spec _ hwf
    exact ⟨hwf', hch.trans hch'⟩

end Logged

end Session

namespace Process

def Sound (p : Process) : Prop := WellFormed p.engine p.disk p.flushJobs p.compactJobs

variable {p : Process}

theorem step_write (h : p.Sound) (stamping : Stamping) (sync : Bool)
    (wall now : UInt64) (key : Bytes) (value : VersionValue) :
    (p.step (.write stamping sync wall now key value)).Sound ∧ Changes (decide (4 ≤ p.engine.frozen.length))
      (p.engine.applyWrite key (stamp p.engine.clock wall stamping) value)
      (p.step (.write stamping sync wall now key value)).engine :=
  write_spec h

theorem Sound.flushJob (h : p.Sound) (hj : p.flushJobs[i]? = some j) :
    p.flushJobs = [j] ∧ i = 0 ∧ WellFormed p.engine p.disk [j] p.compactJobs := by
  unfold Sound at h
  obtain ⟨hnil, -⟩ | ⟨job, built, f, rest, hcons, -⟩ := h.flushing
  · rw [hnil] at hj
    cases hj
  · rw [hcons] at hj h ⊢
    cases i with
    | zero =>
      obtain rfl : (job, built) = j := by simpa using hj
      exact ⟨rfl, rfl, h⟩
    | succ i => cases hj

theorem step_maintenance (h : p.Sound) {op : Op} (hop : op.isWrite = false) :
    (p.step op).Sound ∧ Changes op.lands p.engine (p.step op).engine := by
  have hsame : ∀ q : Process, q = p → q.Sound ∧ Changes op.lands p.engine q.engine := by
    rintro q rfl
    exact ⟨h, .refl⟩
  cases op with
  | write => cases hop
  | sync i =>
    simp only [step, exec]
    cases p.commits[i]? with
    | none => exact hsame _ rfl
    | some commit => exact syncThrough_spec _ h
  | read key =>
    refine ⟨?_, p.engine.getVersioned_change⟩
    obtain ⟨cache, hcache⟩ := p.engine.engine_getVersioned
    simp only [step, exec, commit, Sound, engine_modify, disk_modify]
    rw [show p.session.engine = p.engine from rfl, hcache]
    exact h.frame rfl rfl rfl rfl rfl le_rfl (fun _ _ hp _ => hp)
  | freeze =>
    simp only [step, exec]
    split_ifs
    · exact hsame _ rfl
    · exact freeze_spec _ h
  | flush now => exact flush_spec now h
  | takeFlush =>
    simp only [step, exec]
    cases htake : p.engine.takeFlushJob with
    | none => exact hsame _ rfl
    | some taken =>
      obtain ⟨job, e⟩ := taken
      obtain ⟨hnil, f, rest, hfrozen, -, he⟩ := h.flushing.takeFlushJob htake
      have hwf := WellFormed.takeFlush h htake
      refine ⟨?_, ?_⟩
      · simpa [Sound, hnil] using hwf
      · rw [he]
        exact .single (.same rfl (by simp [frozenMems, hfrozen]) rfl rfl)
  | buildFlush i =>
    simp only [step, exec]
    split
    · rename_i job hj
      obtain ⟨hjobs, rfl, h⟩ := h.flushJob hj
      refine ⟨?_, .refl⟩
      simp only [Sound, commit, hjobs, set_cons_zero]
      exact h.buildFlush (by rw [writeTable, disk_emit]; rfl)
    · exact hsame _ rfl
  | installFlush i =>
    simp only [step, exec]
    split
    · rename_i job sst hj
      obtain ⟨hjobs, rfl, h⟩ := h.flushJob hj
      simp only [Sound, commit, hjobs, eraseIdx_cons_zero]
      exact installFlush_spec _ h
    · exact hsame _ rfl
  | abortFlush i =>
    simp only [step, exec]
    split
    · rename_i job built hj
      obtain ⟨hjobs, rfl, h⟩ := h.flushJob hj
      simp only [Sound, commit, hjobs, eraseIdx_cons_zero]
      exact abortFlush_spec _ h
    · exact hsame _ rfl
  | takeCompact now =>
    simp only [step, exec]
    cases htake : p.engine.takeCompactJob now with
    | none => exact hsame _ rfl
    | some taken =>
      obtain ⟨job, e⟩ := taken
      refine ⟨WellFormed.takeCompact h htake, ?_⟩
      rw [(takeCompactJob_spec htake).1]
      exact .single (.same rfl rfl rfl rfl)
  | buildCompact i =>
    simp only [step, exec]
    split
    · rename_i job hj
      split
      · exact ⟨WellFormed.dropCompact h (eraseIdx_sublist ..), .refl⟩
      · rename_i run hrun
        exact ⟨buildCompact_spec (s := p.session) h hj hrun, .refl⟩
    · exact hsame _ rfl
  | installCompact i =>
    simp only [step, exec]
    split
    · rename_i job run hj
      exact installCompact_spec h hj
    · exact hsame _ rfl
  | setMaintenanceWatermark hlc =>
    obtain ⟨mark, hmark⟩ := p.engine.engine_setMaintenanceWatermark
    simp only [step, exec, commit, Sound, engine_modify, disk_modify]
    rw [show p.session.engine = p.engine from rfl, hmark]
    exact ⟨h.frame rfl rfl rfl rfl rfl le_rfl (fun _ _ hp _ => hp), .single (.same rfl rfl rfl rfl)⟩
  | setTombstoneRetentionMs ms =>
    exact ⟨h.frame rfl rfl rfl rfl rfl le_rfl (fun _ _ hp _ => hp), .single (.same rfl rfl rfl rfl)⟩
  | clearReadCache =>
    refine ⟨h.frame rfl rfl rfl rfl rfl le_rfl (fun _ _ hp _ => hp), .single (.look rfl rfl rfl rfl ?_)⟩
    intro key r hr
    have hnone := ReadCache.get_new p.engine.opts.readCacheCapacity p.engine.opts.readCacheBytes key
    exact absurd (hnone.symm.trans hr) (by simp)

end Process

end Skaidb.Storage
