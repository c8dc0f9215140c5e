import Skaidb.Storage.Recovery.Tracks

namespace Skaidb.Storage

open Skaidb.Base List Process

private def tagged (l0 levels : List SsTable) : List (Nat × SsTable) :=
  l0.map (fun t => (0, t)) ++ levels.zipIdx.map (fun (t, i) => (i + 1, t))

private theorem manifestOf_eq : manifestOf l0 levels = (tagged l0 levels).map (fun x => (x.1, x.2.path)) := by
  rw [manifestOf, tagged, map_append, map_map, map_map]
  rfl

variable {d : Disk}

private theorem readTables_eq {tables : List (Nat × SsTable)}
    (h : ∀ x ∈ tables, d.tables.get? x.2.path = some x.2.entries) :
    readTables d (tables.map (fun x => (x.1, x.2.path))) = some tables := by
  induction tables with
  | nil => rfl
  | cons x tables ih =>
    rw [map_cons, readTables, ih (fun y hy => h y (by simp [hy])), Disk.readTable, h x (by simp)]
    rfl

variable {l0 levels : List SsTable}

private theorem mem_tagged (hx : x ∈ tagged l0 levels) : x.2 ∈ l0 ++ levels := by
  obtain hx | hx := mem_append.mp hx
  · obtain ⟨t, ht, rfl⟩ := mem_map.mp hx
    exact mem_append_left _ ht
  · obtain ⟨⟨t, i⟩, ht, rfl⟩ := mem_map.mp hx
    exact mem_append_right _ (fst_mem_of_mem_zipIdx ht)

private theorem tagged_levels_sorted (levels : List SsTable) (start : Nat) :
    ((levels.zipIdx start).map (fun (t, i) => (i + 1, t))).Pairwise (fun a b => a.1 ≤ b.1) := by
  induction levels generalizing start with
  | nil => exact .nil
  | cons t levels ih =>
    rw [zipIdx_cons, map_cons, pairwise_cons]
    refine ⟨?_, ih (start + 1)⟩
    intro x hx
    obtain ⟨⟨u, i⟩, hu, rfl⟩ := mem_map.mp hx
    have := le_snd_of_mem_zipIdx hu
    simp only at this ⊢
    omega

private theorem lt_foldl_max (lines : List (Nat × Nat)) (start : Nat) :
    start ≤ lines.foldl (fun next line => max next (line.2 + 1)) start ∧
    ∀ line ∈ lines, line.2 < lines.foldl (fun next line => max next (line.2 + 1)) start := by
  induction lines generalizing start with
  | nil => simp
  | cons line lines ih =>
    obtain ⟨hstart, hall⟩ := ih (max start (line.2 + 1))
    rw [foldl_cons]
    refine ⟨by omega, ?_⟩
    intro other ho
    obtain rfl | ho := mem_cons.mp ho
    · omega
    · exact hall other ho

theorem loadManifest_eq
    (hm : d.manifest = some (manifestOf l0 levels) ∨ (d.manifest = none ∧ l0 = [] ∧ levels = []))
    (hfiles : ∀ t ∈ l0 ++ levels, d.tables.get? t.path = some t.entries) :
    ∃ next, loadManifest d = some (l0, levels, next) ∧ ∀ t ∈ l0 ++ levels, t.path < next := by
  obtain hm | ⟨hm, rfl, rfl⟩ := hm
  · have hread : readTables d (manifestOf l0 levels) = some (tagged l0 levels) := by
      rw [manifestOf_eq]
      exact readTables_eq (fun x hx => hfiles x.2 (mem_tagged hx))
    have hdeep : ∀ x ∈ levels.zipIdx.map (fun (t, i) => (i + 1, t)), x.1 ≠ 0 := by
      intro x hx
      obtain ⟨_, -, rfl⟩ := mem_map.mp hx
      exact Nat.succ_ne_zero _
    have hl0 : (tagged l0 levels).filter (fun t => t.1 = 0) = l0.map (fun t => (0, t)) := by
      rw [tagged, filter_append, filter_eq_self.mpr (by simp),
        filter_eq_nil_iff.mpr (by simpa using hdeep), append_nil]
    have hlevels : (tagged l0 levels).filter (fun t => t.1 ≠ 0) =
        levels.zipIdx.map (fun (t, i) => (i + 1, t)) := by
      rw [tagged, filter_append, filter_eq_nil_iff.mpr (by simp),
        filter_eq_self.mpr (by simpa using hdeep), nil_append]
    refine ⟨(manifestOf l0 levels).foldl (fun next line => max next (line.2 + 1)) 0, ?_, ?_⟩
    · rw [loadManifest, hm]
      simp only [hread, Option.map_some, hl0, hlevels]
      rw [(tagged_levels_sorted levels 0).insertionSort_eq, map_map, map_map]
      congr 3
      · exact map_id _
      · exact zipIdx_map_fst 0 levels
    · intro t ht
      have hline : t.path ∈ (manifestOf l0 levels).map Prod.snd := by
        rw [paths_manifestOf]
        exact mem_map_of_mem ht
      obtain ⟨line, hl, hpath⟩ := mem_map.mp hline
      rw [← hpath]
      exact (lt_foldl_max (manifestOf l0 levels) 0).2 line hl
  · exact ⟨0, by rw [loadManifest, hm], by simp⟩

theorem Recoverable.reopen {h : History} (hr : Recoverable h d l0 levels gone inTables)
    {opts : EngineOptions} (hpersist : opts.ephemeral = false) (wall : UInt64) :
    ∃ s, openWithOptions opts d wall = some s ∧ (Process.ofSession s).Sound ∧ Persisted s.engine s.disk ∧
      Tracks h s.engine s.disk l0 levels gone inTables [] [] d.segments.entries ∧
      s.engine.layers = (Memtable.replay (h.records.drop gone)).layer :: tableLayers (l0 ++ levels) ∧
      ∀ key, s.engine.readCache.get key = none := by
  obtain ⟨next, hload, hnext⟩ := loadManifest_eq hr.manifest hr.files
  have hopen : ∃ s, openWithOptions opts d wall = some s ∧ s.engine.opts = opts ∧
      s.disk = d.apply .openWal ∧ s.engine.mem = Memtable.replay (h.records.drop gone) ∧
      s.engine.frozen = [] ∧ s.engine.nextWalSeq = 1 ∧ s.engine.ttlMs = none ∧ s.engine.l0 = l0 ∧
      s.engine.levels = levels ∧ s.engine.nextSeq = next ∧
      s.engine.wal = ⟨0, d.activeRecords.length, d.activeRecords.length⟩ ∧
      ∀ key, s.engine.readCache.get key = none := by
    simp only [openWithOptions, hpersist, hload, Option.map_some, Bool.false_eq_true, if_false]
    exact ⟨_, rfl, rfl, rfl, by rw [hr.log]; rfl, rfl, rfl, rfl, rfl, rfl, rfl, rfl,
      ReadCache.get_new _ _⟩
  obtain ⟨s, hs, hopts, hdisk, hmem, hfrozen, hseq, httl, hl0, hlevels, hnextSeq, hwal, hcache⟩ := hopen
  have htables : s.engine.sstablesNewestFirst = l0 ++ levels := by
    rw [Engine.sstablesNewestFirst, hl0, hlevels]
  have hpaths : s.engine.paths = (l0 ++ levels).map SsTable.path := by rw [Engine.paths, htables]
  have hr' := hr.openWal
  refine ⟨s, hs, ?_, ?_, ?_, ?_, hcache⟩
  · have hres : reserved s.engine [] [] = (l0 ++ levels).map SsTable.path := by
      simp [reserved, hpaths]
    refine ⟨httl, by simp only [ofSession]; rw [hres]; exact hr.nodup, ?_, ?_, by simp [ofSession],
      by simp [ofSession], by simp [ofSession, hfrozen], by simp [ofSession, hfrozen], ?_,
      by simp [ofSession]⟩
    · intro p hp
      simp only [ofSession] at hp ⊢
      rw [hres] at hp
      obtain ⟨t, ht, rfl⟩ := mem_map.mp hp
      rw [hnextSeq]
      exact hnext t ht
    · intro t ht
      simp only [ofSession] at ht ⊢
      rw [htables] at ht
      rw [hdisk]
      exact hr.files t ht
    · exact .inl ⟨rfl, by simp [ofSession, hfrozen]⟩
  · unfold Persisted
    rw [hdisk, hl0, hlevels, show s.engine.manifestLines = manifestOf s.engine.l0 s.engine.levels from rfl,
      hl0, hlevels]
    exact hr.manifest
  · have hsynced : s.engine.wal.writeOffset = d.activeRecords.length ∧
        s.engine.wal.synced = d.activeRecords.length := by rw [hwal]; exact ⟨rfl, rfl⟩
    refine ⟨hopts ▸ hpersist, hdisk ▸ hr', ?_, ?_, by rw [hdisk]; rfl, by rw [hfrozen]; rfl, ?_,
      .inr ⟨rfl, rfl, hseq⟩, hseq.ge, (hsynced.2.trans hsynced.1.symm).le⟩
    · intro hnil
      have hle := hr.flushed_le
      have hge := hr.gone_flushed
      have hsealed : d.sealedRecords.length = 0 := by simp [Disk.sealedRecords, hnil]
      simp only [recordsOf, map_nil, flatten_nil, length_nil]
      omega
    · rw [Engine.tablesLayers, htables]
    · refine ⟨d.wal.getD ⟨[], 0⟩, by rw [hdisk]; rfl, ?_, ?_⟩
      · rw [hsynced.1]
        cases hd : d.wal <;> simp [Disk.activeRecords, hd]
      · rw [hmem, hr.log]
        cases hd : d.wal <;> simp [Disk.activeRecords, Disk.sealedRecords, recordsOf, hd]
  · rw [layers_eq, hmem, Engine.frozenMems, hfrozen, Engine.tablesLayers, htables]
    rfl

end Skaidb.Storage
