import Skaidb.Schema.Touches

namespace Skaidb.Schema

open Skaidb.Base Skaidb.Exec Skaidb.Storage List RoleStatement AlterAction

-- The keys hold every object that is older than the statement.
variable {keys : Set SchemaKey} {start c : Catalog} (hadv : ∀ key, start.schemaAdvances key hlc = true → key ∈ keys)

-- A drop touches only the keys, and what it leaves was there before.
structure Drops (hlc : Hlc) (keys : Set SchemaKey) (c c' : Catalog) : Prop where
  touches : Touches hlc keys c c'
  indexes : ∀ name idx, c'.indexes.get? name = some idx → c.indexes.get? name = some idx
  search : ∀ name idx, c'.searchIndexes.get? name = some idx → c.searchIndexes.get? name = some idx
  vector : ∀ name idx, c'.vectorIndexes.get? name = some idx → c.vectorIndexes.get? name = some idx
  geo : ∀ name idx, c'.geoIndexes.get? name = some idx → c.geoIndexes.get? name = some idx
  timeseries : ∀ name ts', c'.timeseries.get? name = some ts' →
    ∃ ts, c.timeseries.get? name = some ts ∧ ts'.rollups ⊆ ts.rollups ∧ ts'.rollupOf = ts.rollupOf

namespace Drops

theorem refl : Drops hlc keys c c :=
  ⟨.refl, fun _ _ h => h, fun _ _ h => h, fun _ _ h => h, fun _ _ h => h,
    fun _ ts h => ⟨ts, h, fun _ hr => hr, rfl⟩⟩

private theorem of_erase {ν : Type} {m m' : OrdMap String ν}
    (h : ∀ n v, m'.get? n = some v → m.get? n = some v) :
    ∀ n v, (m'.erase name).get? n = some v → m.get? n = some v := by
  intro n v hv
  rw [OrdMap.get?_erase] at hv
  split_ifs at hv
  exact h n v hv

section

variable (h : Drops hlc keys start c)

include h

theorem record (hk : key ∈ keys) : Drops hlc keys start (c.recordSchema key hlc dropped) :=
  { h with touches := h.touches.record hk }

theorem eraseTable (hk : .table name ∈ keys) : Drops hlc keys start { c with tables := c.tables.erase name } :=
  { h with touches := h.touches.edit { Edits.refl with tables := .erase .refl hk } }

theorem eraseIndex (hk : .index name ∈ keys) : Drops hlc keys start { c with indexes := c.indexes.erase name } :=
  { h with touches := h.touches.edit { Edits.refl with indexes := .erase .refl hk }, indexes := of_erase h.indexes }

theorem eraseSearch (hk : .search name ∈ keys) :
    Drops hlc keys start { c with searchIndexes := c.searchIndexes.erase name } :=
  { h with touches := h.touches.edit { Edits.refl with searchIndexes := .erase .refl hk }, search := of_erase h.search }

theorem eraseVector (hk : .vector name ∈ keys) :
    Drops hlc keys start { c with vectorIndexes := c.vectorIndexes.erase name } :=
  { h with touches := h.touches.edit { Edits.refl with vectorIndexes := .erase .refl hk }, vector := of_erase h.vector }

theorem eraseGeo (hk : .geo name ∈ keys) :
    Drops hlc keys start { c with geoIndexes := c.geoIndexes.erase name } :=
  { h with touches := h.touches.edit { Edits.refl with geoIndexes := .erase .refl hk }, geo := of_erase h.geo }

theorem eraseTimeseries (hk : .table name ∈ keys) :
    Drops hlc keys start { c with timeseries := c.timeseries.erase name } := by
  refine { h with touches := h.touches.edit { Edits.refl with timeseries := .erase .refl hk }, timeseries := ?_ }
  intro n ts' hts
  rw [OrdMap.get?_erase] at hts
  split_ifs at hts
  exact h.timeseries n ts' hts

theorem delistRollup (hk : .table source ∈ keys) {keep : RollupDef → Bool} :
    Drops hlc keys start { c with
      timeseries := c.timeseries.modify source (fun d => { d with rollups := d.rollups.filter keep }) } := by
  refine { h with touches := h.touches.edit { Edits.refl with timeseries := .modify .refl hk }, timeseries := ?_ }
  intro n ts' hts
  rw [OrdMap.get?_modify] at hts
  split_ifs at hts with hn
  · subst hn
    obtain ⟨ts'', hts'', rfl⟩ := Option.map_eq_some_iff.mp hts
    obtain ⟨ts, hget, hsub, hof⟩ := h.timeseries n ts'' hts''
    exact ⟨ts, hget, fun r hr => hsub (mem_of_mem_filter hr), hof⟩
  · exact h.timeseries n ts' hts

theorem foldl {α : Type} {step : Catalog → α → Catalog} (items : List α)
    (hstep : ∀ c a, a ∈ items → Drops hlc keys start c → Drops hlc keys start (step c a)) :
    Drops hlc keys start (items.foldl step c) := by
  induction items generalizing c with
  | nil => exact h
  | cons a rest ih => exact ih (hstep c a (by simp) h) (fun d b hb => hstep d b (by simp [hb]))

theorem foldl_indexes {ν : Type} {m : OrdMap String ν} {table : ν → String}
    {step : Catalog → String × ν → Catalog}
    (hstep : ∀ c n idx, m.get? n = some idx → table idx = name → Drops hlc keys start c →
      Drops hlc keys start (step c (n, idx))) :
    Drops hlc keys start ((m.entries.filter (fun e => table e.2 = name)).foldl step c) := by
  refine h.foldl _ ?_
  rintro c ⟨n, idx⟩ hmem h
  obtain ⟨hentry, htable⟩ := mem_filter.mp hmem
  exact hstep c n idx ((OrdMap.get?_eq_some_iff _).mpr hentry) (by simpa using htable) h

end

end Drops

section DropHandlers

variable (h : Drops hlc keys start c)

include h

theorem drops_dropTimeseries {ts : TsTableDef} (hname : .table name ∈ keys)
    (hrollups : ∀ r ∈ ts.rollups, .table r.name ∈ keys) (hsource : ∀ s ∈ ts.rollupOf, .table s ∈ keys) :
    Drops hlc keys start (dropTimeseries c hlc name ts) := by
  refine Drops.foldl ?_ _ ?_
  · cases hof : ts.rollupOf with
    | none => exact h
    | some source => exact h.delistRollup (hsource source (by simp [hof]))
  · intro c victim hvictim h
    have hk : .table victim ∈ keys := by
      obtain rfl | hv := mem_cons.mp hvictim
      · exact hname
      · obtain ⟨r, hr, rfl⟩ := mem_map.mp hv
        exact hrollups r hr
    exact (h.eraseTimeseries hk).record hk

theorem drops_dropIndexesOf (hk : ∀ n idx, c.indexes.get? n = some idx → idx.table = name →
      .index n ∈ keys ∧ (idx.global = true → .table (gidxTable n) ∈ keys)) :
    Drops hlc keys start (dropIndexesOf hlc name c) := by
  refine h.foldl_indexes ?_
  intro c n idx hentry htable h
  obtain ⟨hindex, hgidx⟩ := hk n idx hentry htable
  unfold dropTableIndex
  split_ifs with hglobal
  · exact (((h.eraseIndex hindex).record hindex).eraseTable (hgidx hglobal)).record (hgidx hglobal)
  · exact (h.eraseIndex hindex).record hindex

theorem drops_dropSearchOf
    (hk : ∀ n idx, c.searchIndexes.get? n = some idx → idx.table = name → .search n ∈ keys) :
    Drops hlc keys start (dropSearchOf hlc name c) := by
  refine h.foldl_indexes ?_
  intro c n idx hentry htable h
  have hn := hk n idx hentry htable
  exact (h.eraseSearch hn).record hn

theorem drops_dropVectorOf
    (hk : ∀ n idx, c.vectorIndexes.get? n = some idx → idx.table = name → .vector n ∈ keys) :
    Drops hlc keys start (dropVectorOf hlc name c) := by
  refine h.foldl_indexes ?_
  intro c n idx hentry htable h
  have hn := hk n idx hentry htable
  exact (h.eraseVector hn).record hn

theorem drops_dropGeoOf (hk : ∀ n idx, c.geoIndexes.get? n = some idx → idx.table = name → .geo n ∈ keys) :
    Drops hlc keys start (dropGeoOf hlc name c) := by
  refine h.foldl_indexes ?_
  intro c n idx hentry htable h
  have hn := hk n idx hentry htable
  exact (h.eraseGeo hn).record hn

include hadv

-- The inner loops read the catalog left by the ones before; what they find there was in the
-- catalog the drop began with.
theorem drops_dropTable
    (hdep : start.schemaAdvances (.table name) hlc = true → ∀ key ∈ dependents start name, key ∈ keys) :
    Drops hlc keys start (dropTable c hlc name ifExists).1 := by
  unfold dropTable
  by_cases hstale : c.schemaAdvances (.table name) hlc = true
  case neg => simpa [hstale, Catalog.done] using h
  have hname := hadv _ (h.touches.advances hstale)
  have hdep := fun key hkey => hdep (h.touches.advances hstale) key ((mem_dependents start).mpr hkey)
  simp only [hstale, Bool.not_true, Bool.false_eq_true, if_false]
  cases hts : c.timeseries.get? name with
  | some ts' =>
    obtain ⟨ts, hget, hsub, hof⟩ := h.timeseries name ts' hts
    refine drops_dropTimeseries h hname ?_ ?_
    · intro r hr
      exact hdep _ (.inl ⟨ts, hget, .inl ⟨r, hsub hr, rfl⟩⟩)
    · intro s hs
      exact hdep _ (.inl ⟨ts, hget, .inr ⟨s, hof ▸ hs, rfl⟩⟩)
  | none =>
    split_ifs
    · exact h.record hname
    · exact h
    · have h₁ := drops_dropIndexesOf (h.eraseTable hname) (fun n idx hget htable =>
        have hidx := h.indexes n idx hget
        ⟨hdep _ (.inr (.inl ⟨n, idx, hidx, htable, .inl rfl⟩)),
          fun hglobal => hdep _ (.inr (.inl ⟨n, idx, hidx, htable, .inr ⟨hglobal, rfl⟩⟩))⟩)
      have h₂ := drops_dropSearchOf h₁ (fun n idx hget htable =>
        hdep _ (.inr (.inr (.inl ⟨n, idx, h₁.search n idx hget, htable, rfl⟩))))
      have h₃ := drops_dropVectorOf h₂ (fun n idx hget htable =>
        hdep _ (.inr (.inr (.inr (.inl ⟨n, idx, h₂.vector n idx hget, htable, rfl⟩)))))
      have h₄ := drops_dropGeoOf h₃ (fun n idx hget htable =>
        hdep _ (.inr (.inr (.inr (.inr ⟨n, idx, h₃.geo n idx hget, htable, rfl⟩)))))
      exact h₄.record hname

theorem drops_dropVectorIndex : Drops hlc keys start (dropVectorIndex c hlc name ifExists).1 := by
  unfold dropVectorIndex
  split_ifs with hstale
  · exact h
  · exact h
  · have hname := hadv (.vector name) (h.touches.advances (by simpa using hstale))
    exact (h.eraseVector hname).record hname

theorem drops_dropSearchIndex : Drops hlc keys start (dropSearchIndex c hlc name ifExists).1 := by
  unfold dropSearchIndex
  split_ifs with hstale
  · exact h
  · exact h
  · have hname := hadv (.search name) (h.touches.advances (by simpa using hstale))
    exact (h.eraseSearch hname).record hname

theorem drops_dropGeoIndex : Drops hlc keys start (dropGeoIndex c hlc name ifExists).1 := by
  unfold dropGeoIndex
  split_ifs with hstale
  · exact h
  · exact h
  · have hname := hadv (.geo name) (h.touches.advances (by simpa using hstale))
    exact (h.eraseGeo hname).record hname

theorem drops_dropIndex
    (hgidx : start.schemaAdvances (.index name) hlc = true → ∀ idx, start.indexes.get? name = some idx →
      idx.global = true → .table (gidxTable name) ∈ keys) :
    Drops hlc keys start (dropIndex c hlc name ifExists).1 := by
  unfold dropIndex
  by_cases hstale : c.schemaAdvances (.index name) hlc = true
  case neg => simpa [hstale, Catalog.done] using h
  have hpass := h.touches.advances hstale
  have hname := hadv _ hpass
  simp only [hstale, Bool.not_true, Bool.false_eq_true, if_false]
  cases hidx : c.indexes.get? name with
  | none =>
    split_ifs
    · exact h.record hname
    · exact h
  | some idx =>
    simp only
    split_ifs with hglobal
    · have hk := hgidx hpass idx (h.indexes name idx hidx) hglobal
      exact (((h.eraseIndex hname).eraseTable hk).record hk).record hname
    · exact (h.eraseIndex hname).record hname

end DropHandlers

section Handlers

include hadv

theorem touches_createNamed {place : Catalog → Catalog}
    (hplace : start.schemaAdvances (.table name) hlc = true → Edits keys start (place start)) :
    Touches hlc keys start (createNamed start hlc name ifNotExists place).1 := by
  unfold createNamed
  split_ifs with hstale
  · exact .refl
  · exact .record .refl (hadv _ (by simpa using hstale))
  · exact .refl
  · exact .place (hplace (by simpa using hstale)) (hadv _ (by simpa using hstale))

theorem touches_createTable : Touches hlc keys start (createTable start hlc ct).1 := by
  unfold createTable
  split_ifs
  · exact .refl
  · exact .refl
  · exact touches_createNamed hadv (fun hname => { Edits.refl with tables := .insert .refl (hadv _ hname) })

theorem touches_createTimeseriesTable :
    Touches hlc keys start (createTimeseriesTable start hlc name seriesKey retentionMs oooWindowMs ifNotExists).1 := by
  unfold createTimeseriesTable
  split_ifs
  · exact .refl
  · exact .refl
  · exact touches_createNamed hadv (fun hname => { Edits.refl with timeseries := .insert .refl (hadv _ hname) })

theorem touches_createRollup (hsource : start.schemaAdvances (.table name) hlc = true → .table source ∈ keys) :
    Touches hlc keys start (createRollup start hlc name source bucketMs retentionMs ifNotExists).1 := by
  unfold createRollup
  cases start.timeseries.get? source with
  | none => exact .refl
  | some src =>
    simp only
    split_ifs
    · exact .refl
    · exact .refl
    · exact touches_createNamed hadv
        (fun hname => { Edits.refl with timeseries := .modify (.insert .refl (hadv _ hname)) (hsource hname) })

-- A statement that is not newer than the object changes nothing.
theorem touches_gated {out : Applied}
    (hout : start.schemaAdvances key hlc = true → key ∈ keys → Touches hlc keys start out.1) :
    Touches hlc keys start (if !start.schemaAdvances key hlc then start.done else out).1 := by
  split_ifs with hstale
  · exact .refl
  · have hnewer : start.schemaAdvances key hlc = true := by simpa using hstale
    exact hout hnewer (hadv _ hnewer)

theorem touches_createIndex (hgidx : start.schemaAdvances (.index name) hlc = true → global = true →
      start.tables.contains (gidxTable name) = false → .table (gidxTable name) ∈ keys) :
    Touches hlc keys start (createIndex start hlc name table paths ifNotExists global ready).1 := by
  unfold createIndex
  cases start.tables.get? table with
  | none => exact .refl
  | some on =>
    refine touches_gated hadv fun hnewer hname => ?_
    split_ifs with _ _ _ _ _ hglobal hcontains
    · exact .place { Edits.refl with indexes := .modify .refl hname } hname
    · exact .record .refl hname
    · exact .refl
    · exact .refl
    · exact .refl
    · exact .place { Edits.refl with indexes := .insert .refl hname } hname
    · have hk := hgidx hnewer hglobal (by simpa using hcontains)
      exact .place { Edits.refl with tables := .insert .refl hk, indexes := .insert .refl hname } hname
    · exact .place { Edits.refl with indexes := .insert .refl hname } hname

omit hadv in
theorem touches_placeVectorIndex {ci : CreateVectorIndex} (h : Touches hlc keys start c)
    (hname : .vector ci.name ∈ keys) : Touches hlc keys start (placeVectorIndex c hlc ci preservedEf).1 := by
  unfold placeVectorIndex
  split_ifs
  · exact h
  · split
    · exact h
    · refine Touches.record (h.edit ?_) hname
      exact { Edits.refl with vectorIndexes := .insert .refl hname }

theorem touches_createVectorIndex : Touches hlc keys start (createVectorIndex start hlc env ci).1 := by
  unfold createVectorIndex
  split
  · exact .refl
  cases embedError env ci with
  | some e => exact .refl
  | none =>
    refine touches_gated hadv fun _ hname => ?_
    cases start.vectorIndexes.get? ci.name with
    | none => exact touches_placeVectorIndex .refl hname
    | some existing =>
      simp only
      split_ifs
      · exact .refl
      · exact .record .refl hname
      · exact touches_placeVectorIndex (.edit .refl { Edits.refl with vectorIndexes := .erase .refl hname }) hname

theorem touches_alterVectorIndex : Touches hlc keys start (alterVectorIndex start hlc name options).1 := by
  unfold alterVectorIndex
  cases vectorOptions options none with
  | error e => exact .refl
  | ok ef =>
    split_ifs with hstale
    · exact .refl
    · exact .refl
    · have hname := hadv (.vector name) (by simpa using hstale)
      exact .place { Edits.refl with vectorIndexes := .modify .refl hname } hname

theorem touches_createSearchIndex :
    Touches hlc keys start (createSearchIndex start hlc env name table paths options ifNotExists).1 := by
  unfold createSearchIndex
  by_cases hstale : start.schemaAdvances (.search name) hlc = true
  case neg =>
    simp only [Bool.eq_false_iff.mpr hstale, Bool.not_false, if_true]
    split_ifs
    · exact .refl
    · exact .refl
  have hname := hadv _ hstale
  have hplaced : Edits keys start
      { start with searchIndexes := start.searchIndexes.insert name ⟨table, paths, options⟩ } :=
    { Edits.refl with searchIndexes := .insert .refl hname }
  simp only [hstale, Bool.not_true, Bool.false_eq_true, if_false]
  split
  · exact .refl
  cases start.searchIndexes.get? name with
  | none =>
    cases env.searchError paths options with
    | some e => exact .refl
    | none => exact .place hplaced hname
  | some existing =>
    simp only
    split_ifs
    · exact .refl
    · exact .record .refl hname
    · cases env.searchError paths options with
      | some e => exact .edit .refl hplaced
      | none => exact .place hplaced hname

theorem touches_alterSearchIndex : Touches hlc keys start (alterSearchIndex start hlc env name options).1 := by
  unfold alterSearchIndex
  split
  · exact .refl
  · split_ifs with hstale
    · exact .refl
    · have hname := hadv (.search name) (by simpa using hstale)
      split
      · exact .refl
      · split
        · exact .refl
        · exact .place { Edits.refl with searchIndexes := .modify .refl hname } hname

theorem touches_createGeoIndex :
    Touches hlc keys start (createGeoIndex start hlc name table path ifNotExists).1 := by
  unfold createGeoIndex
  cases start.tables.get? table with
  | none => exact .refl
  | some on =>
    refine touches_gated hadv fun _ hname => ?_
    cases start.geoIndexes.get? name with
    | some existing =>
      simp only
      split_ifs
      · exact .refl
      · exact .record .refl hname
      · exact .edit .refl { Edits.refl with geoIndexes := .erase .refl hname }
      · exact .place { Edits.refl with geoIndexes := .insert .refl hname } hname
    | none =>
      simp only
      split_ifs
      · exact .refl
      · exact .place { Edits.refl with geoIndexes := .insert .refl hname } hname

end Handlers

section AlterHandlers

private theorem agreeOff_changedBy {ν : Type} [DecidableEq ν] {m : OrdMap String ν} {f : ν → ν}
    (h : ∀ key ∈ changedBy kind m f, key ∈ keys) : AgreeOff keys kind m (m.mapValues f) := by
  refine AgreeOff.mapValues ?_
  intro e he hne
  exact h _ (mem_map.mpr ⟨e, mem_filter.mpr ⟨he, by simpa using hne⟩, rfl⟩)

theorem touches_renameTable (h : ∀ key ∈ (AlterAction.renameTable new).others c name, key ∈ keys) :
    Touches hlc keys c (renameTable c name new d).1 := by
  simp only [AlterAction.others, mem_append] at h
  unfold renameTable
  split_ifs
  · exact .refl
  · exact .edit .refl { Edits.refl with
      tables := .insert (.erase .refl (h _ (by simp))) (h _ (by simp))
      indexes := agreeOff_changedBy (fun key hk => h key (.inl (.inl (.inr hk))))
      vectorIndexes := agreeOff_changedBy (fun key hk => h key (.inl (.inr hk)))
      searchIndexes := agreeOff_changedBy (fun key hk => h key (.inr hk)) }

theorem touches_renameColumn (h : ∀ key ∈ (AlterAction.renameColumn old new).others c name, key ∈ keys) :
    Touches hlc keys c (renameColumn c env rows name old new).1 := by
  simp only [AlterAction.others, mem_append] at h
  have hpaths : Touches hlc keys c (renamePaths c name old new) := .edit .refl { Edits.refl with
    tables := .modify .refl (h _ (by simp))
    indexes := agreeOff_changedBy (fun key hk => h key (.inl (.inl (.inl (.inr hk)))))
    vectorIndexes := agreeOff_changedBy (fun key hk => h key (.inl (.inr hk)))
    searchIndexes := agreeOff_changedBy (fun key hk => h key (.inr hk)) }
  have hrebuilt : AgreeOff keys .index (renamePaths c name old new).indexes
      ((renamePaths c name old new).indexes.mapValues
        (fun i => if i.table = name then { i with building := true } else i)) := by
    refine AgreeOff.mapValues ?_
    intro e he hne
    obtain ⟨e', he', rfl⟩ := mem_map.mp he
    have hof : e'.2.table = name := by
      by_contra hother
      exact hne (if_neg hother)
    exact h _ (.inl (.inl (.inr (mem_map.mpr ⟨e', mem_filter.mpr ⟨he', by simpa using hof⟩, rfl⟩))))
  unfold renameColumn
  cases rows with
  | some e => exact hpaths
  | none =>
    simp only
    split
    · exact .edit hpaths { Edits.refl with indexes := hrebuilt }
    · exact .edit hpaths { Edits.refl with indexes := hrebuilt }

theorem touches_alterTable {action : AlterAction} (h : ∀ key ∈ action.others c name, key ∈ keys) :
    Touches hlc keys c (alterTable c env rows name action).1 := by
  unfold alterTable
  cases hts : c.timeseries.get? name with
  | some d =>
    cases action with
    | setOptions options =>
      exact .edit .refl { Edits.refl with timeseries := .insert .refl (h _ (by simp [AlterAction.others])) }
    | renameTable newName | renameColumn old new => exact .refl
  | none =>
    cases c.tables.get? name with
    | none => exact .refl
    | some d =>
      cases action with
      | renameTable newName => exact touches_renameTable h
      | renameColumn old new => exact touches_renameColumn h
      | setOptions options =>
        simp only [setTableOptions]
        split_ifs
        · exact .refl
        · exact .edit .refl { Edits.refl with tables := .insert .refl (h _ (by simp [AlterAction.others])) }

end AlterHandlers

section DatabaseHandlers

include hadv

theorem touches_createDatabase : Touches hlc keys start (createDatabase start hlc name ifNotExists).1 := by
  unfold createDatabase
  split_ifs with _ hstale
  · exact .refl
  · exact .refl
  · exact .refl
  · exact .record .refl (hadv _ (by simpa using hstale))
  · have hname := hadv (.database name) (by simpa using hstale)
    exact .place { Edits.refl with databases := .insert .refl hname } hname

theorem touches_dropDatabase (hothers : start.schemaAdvances (.database name) hlc = true →
      ∀ key ∈ (Statement.dropDatabase name ifExists).others start hlc, key ∈ keys) :
    Touches hlc keys start (dropDatabase start hlc name ifExists).1 := by
  unfold dropDatabase
  split_ifs with _ hstale
  · exact .refl
  · exact .refl
  · exact .record .refl (hadv _ (by simpa using hstale))
  · exact .refl
  · have hname := hadv (.database name) (by simpa using hstale)
    have hothers := hothers (by simpa using hstale)
    simp only [Statement.others, mem_append, mem_flatMap, mem_map, mem_filter] at hothers
    have hlast : ∀ c, Drops hlc keys start c → Touches hlc keys start
        (({ c with databases := c.databases.erase name }).recordSchema (.database name) hlc true) := by
      intro c h
      refine Touches.record (h.touches.edit ?_) hname
      exact { Edits.refl with databases := .erase .refl hname }
    refine hlast _ (.foldl (.foldl (.foldl (.foldl .refl _ ?_) _ ?_) _ ?_) _ ?_)
    · intro c t ht h
      refine drops_dropTable hadv h (fun hpass key hkey => ?_)
      obtain ⟨hmem, hof⟩ := mem_filter.mp ht
      exact hothers key (.inl ⟨t, ⟨hmem, by simp [hof, hpass]⟩, hkey⟩)
    · intro c i _ h
      exact drops_dropVectorIndex hadv h
    · intro c i _ h
      exact drops_dropSearchIndex hadv h
    · intro c i hi h
      refine drops_dropIndex hadv h (fun hpass idx hidx hglobal => ?_)
      obtain ⟨-, hof⟩ := mem_filter.mp hi
      have hentry := (OrdMap.get?_eq_some_iff _).mp hidx
      exact hothers _ (.inr ⟨(i, idx), ⟨hentry, by simp [hof, hglobal, hpass]⟩, rfl⟩)

end DatabaseHandlers

section AuthHandlers

theorem touches_editRole (hk : .role role ∈ keys) : Touches hlc keys c (editRole c hlc role edit).1 := by
  unfold editRole
  split_ifs
  · exact .refl
  · exact .place { Edits.refl with authRoles := .modify .refl hk } hk

include hadv

theorem touches_createUser {scram : Scram} {password verifier : Option String} {gssapi replace : Bool}
    (hrole : start.schemaAdvances (.user name) hlc = true → .role name ∈ keys) :
    Touches hlc keys start (createUser start hlc scram name password verifier gssapi ifNotExists replace).1 := by
  unfold createUser
  cases userCredential scram name password verifier gssapi with
  | error e =>
    simp only
    split_ifs
    · exact .refl
    · exact .refl
    · exact .refl
    · exact .refl
  | ok user =>
    simp only
    split_ifs with _ _ _ hstale
    · exact .refl
    · exact .refl
    · exact .refl
    · exact .refl
    · have hk := hadv (.user name) (by simpa using hstale)
      refine Touches.record (.place ?_ hk) (hrole (by simpa using hstale))
      exact { Edits.refl with users := .insert .refl hk }
    · have hk := hadv (.user name) (by simpa using hstale)
      have hr := hrole (by simpa using hstale)
      refine Touches.record (.place ?_ hk) hr
      exact { Edits.refl with users := .insert .refl hk, authRoles := .insert .refl hr }

theorem touches_auth {s : RoleStatement}
    (hothers : (∀ key ∈ s.own, start.schemaAdvances key hlc = true) → ∀ key ∈ s.others, key ∈ keys) :
    Touches hlc keys start (s.apply start hlc scram).1 := by
  cases s with
  | createUser name password verifier gssapi ifNotExists =>
    refine touches_createUser hadv (fun hname => ?_)
    exact hothers (by simpa [RoleStatement.own] using hname) _ (by simp [RoleStatement.others])
  | alterUser name password =>
    refine touches_createUser hadv (fun hname => ?_)
    exact hothers (by simpa [RoleStatement.own] using hname) _ (by simp [RoleStatement.others])
  | dropUser name ifExists =>
    simp only [apply, dropUser]
    split_ifs with hstale
    · exact .refl
    · exact .refl
    · have hname : start.schemaAdvances (.user name) hlc = true := by simpa using hstale
      have hk := hadv _ hname
      have hr := hothers (by simpa [RoleStatement.own] using hname) (.role name) (by simp [RoleStatement.others])
      refine Touches.record (.place ?_ hk) hr
      exact { Edits.refl with users := .erase .refl hk, authRoles := .erase .refl hr }
  | createRole name ifNotExists state =>
    simp only [apply, createAuthRole]
    split_ifs with hstale
    · exact .refl
    · exact .refl
    · have hk := hadv (.role name) (by simpa using hstale)
      split
      · exact .refl
      · exact .place { Edits.refl with authRoles := .insert .refl hk } hk
  | dropRole name ifExists =>
    simp only [apply, dropAuthRole]
    split_ifs with _ hstale
    · exact .refl
    · exact .refl
    · exact .refl
    · have hk := hadv (.role name) (by simpa using hstale)
      exact .place { Edits.refl with authRoles := .erase .refl hk } hk
  | grant privilege object role =>
    simp only [apply, grant]
    split_ifs
    · exact .refl
    · exact touches_editRole (hothers (by simp [RoleStatement.own]) _ (by simp [RoleStatement.others]))
  | revoke privilege object role =>
    exact touches_editRole (hothers (by simp [RoleStatement.own]) _ (by simp [RoleStatement.others]))
  | grantRole role member =>
    simp only [apply, grantRoleEdge]
    split_ifs
    · exact .refl
    · exact touches_editRole (hothers (by simp [RoleStatement.own]) _ (by simp [RoleStatement.others]))
  | revokeRole role member =>
    exact touches_editRole (hothers (by simp [RoleStatement.own]) _ (by simp [RoleStatement.others]))

end AuthHandlers

end Skaidb.Schema
