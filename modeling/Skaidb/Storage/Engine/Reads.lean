import Skaidb.Storage.Engine.Steps

namespace Skaidb.Storage

open Skaidb.Base List Option Engine Memtable Process

def Engine.tablesLayers (e : Engine) : List (Layer Bytes Hlc VersionValue) :=
  tableLayers e.sstablesNewestFirst

def Engine.Retains (e : Engine) (key : Bytes) (v : Version) : Prop :=
  (∃ m ∈ e.memtables, (key, v) ∈ m.iterVersions) ∨ ∃ t ∈ e.sstablesNewestFirst, t.get key = some v

def Engine.HighestRetained (e : Engine) (key : Bytes) (found : Option Version) : Prop :=
  (∀ v, found = some v → e.Retains key v) ∧
  ∀ w, e.Retains key w → ∃ v, found = some v ∧ w.1 ≤ v.1

def Engine.sources (e : Engine) : List (List (Bytes × Version)) :=
  e.memtables.map iterLatest ++ e.sstablesNewestFirst.map (fun t => t.entries.entries)

theorem Engine.sources_sorted {e : Engine} : ∀ items ∈ e.sources, items.Pairwise (fun a b => a.1 < b.1) := by
  intro items hi
  obtain hi | hi := mem_append.mp hi
  · obtain ⟨m, -, rfl⟩ := mem_map.mp hi
    exact m.iterLatest_sorted
  · obtain ⟨t, -, rfl⟩ := mem_map.mp hi
    exact t.entries.sorted

private theorem sources_eq {e : Engine} : e.sources.map OrdMap.lookup = e.layers := by
  rw [sources, List.map_append, List.map_map, List.map_map]
  congr 1
  · refine List.map_congr_left ?_
    intro m _
    funext key
    exact m.lookup_iterLatest_eq_getEntryVersioned key

theorem mergedIter_spec {e : Engine} : e.mergedIter.Pairwise (fun a b => a.1 < b.1) ∧
    ∀ key, OrdMap.lookup e.mergedIter key = newest e.layers key := by
  rw [← sources_eq]
  exact KWayMerge.run_spec e.sources sources_sorted

theorem highestRetained_newest {e : Engine} : e.HighestRetained key (newest e.layers key) := by
  constructor
  · intro v hv
    obtain ⟨layer, hl, hlv⟩ := exists_of_newest_eq_some hv
    obtain hl | hl := List.mem_append.mp hl
    · obtain ⟨m, hm, rfl⟩ := List.mem_map.mp hl
      exact .inl ⟨m, hm, ((m.getEntryVersioned_eq_some_iff key).mp hlv).1⟩
    · obtain ⟨t, ht, rfl⟩ := List.mem_map.mp hl
      exact .inr ⟨t, ht, hlv⟩
  · rintro w (⟨m, hm, hw⟩ | ⟨t, ht, hw⟩)
    · -- A superseded version of a memtable lies below the one its reads return.
      cases hget : m.getEntryVersioned key with
      | none => exact absurd hw ((m.getEntryVersioned_eq_none_iff key).mp hget w)
      | some u =>
        have hle : w.1 ≤ u.1 := ((m.getEntryVersioned_eq_some_iff key).mp hget).2 w hw
        have hmem : m.layer ∈ e.layers := by
          simp only [Engine.layers, List.mem_append, List.mem_map]
          exact .inl ⟨m, hm, rfl⟩
        obtain ⟨v, hv, hvle⟩ := newest_le_of_mem hmem hget
        exact ⟨v, hv, hle.trans hvle⟩
    · have hmem : t.layer ∈ e.layers := by
        simp only [Engine.layers, tableLayers, List.mem_append, List.mem_map]
        exact .inr ⟨t, ht, rfl⟩
      exact newest_le_of_mem hmem hw

-- Cached keys are in no memtable. What is cached is what the tables hold, or a
-- tombstone they have dropped since.
def CacheSound (e : Engine) : Prop :=
  ∀ key r, e.readCache.get key = some r →
    (∀ m ∈ e.memtables, m.getEntryVersioned key = none) ∧
    (r = firstHit e.tablesLayers key ∨
      (firstHit e.tablesLayers key = none ∧ ∃ v, r = some v ∧ Tombstone v))

def CacheExact (e : Engine) : Prop :=
  ∀ key r, e.readCache.get key = some r → r = firstHit e.tablesLayers key

theorem memtables_findSome? {e : Engine} : e.memtables.findSome? (fun m => m.getEntryVersioned key) =
      firstHit (e.memtables.map layer) key := by
  unfold firstHit
  rw [findSome?_map]
  rfl

theorem tables_findSome? {e : Engine} :
    e.sstablesNewestFirst.findSome? (fun t => t.get key) = firstHit e.tablesLayers key := by
  unfold firstHit tablesLayers tableLayers
  rw [findSome?_map]
  rfl

variable {e : Engine}

theorem getVersioned_cases {e : Engine} : (e.getVersioned key).1 = firstHit e.layers key ∨
      e.readCache.get key = some (e.getVersioned key).1 ∧ firstHit e.layers key = firstHit e.tablesLayers key := by
  have hlayers : firstHit e.layers key =
      (firstHit (e.memtables.map layer) key).or (firstHit e.tablesLayers key) :=
    firstHit_append
  unfold getVersioned
  rw [memtables_findSome?, tables_findSome?, hlayers]
  cases firstHit (e.memtables.map layer) key with
  | some v => exact .inl rfl
  | none =>
    cases e.readCache.get key with
    | none => exact .inl rfl
    | some r => exact .inr ⟨rfl, rfl⟩

theorem getVersioned_spec (h : CacheSound e) : (e.getVersioned key).1 = firstHit e.layers key ∨
      (firstHit e.layers key = none ∧ ∃ v, (e.getVersioned key).1 = some v ∧ Tombstone v) := by
  obtain heq | ⟨hcache, hlayers⟩ := getVersioned_cases
  · exact .inl heq
  · rw [hlayers]
    exact (h key _ hcache).2

theorem getVersioned_of_exact (h : CacheExact e) : (e.getVersioned key).1 = firstHit e.layers key := by
  obtain heq | ⟨hcache, hlayers⟩ := getVersioned_cases
  · exact heq
  · exact (h key _ hcache).trans hlayers.symm

variable {e' : Engine}

theorem Change.misses (h : Change lands e e') (hmiss : ∀ m ∈ e.memtables, m.getEntryVersioned key = none) :
    ∀ m ∈ e'.memtables, m.getEntryVersioned key = none := by
  rw [e.memtables_eq] at hmiss
  intro m hm
  rw [e'.memtables_eq] at hm
  cases h with
  | freeze mem frozen tables cache =>
    rw [mem, frozen, reverse_append] at hm
    obtain rfl | hm := mem_cons.mp hm
    · exact getEntryVersioned_new key
    · exact hmiss m (by simpa using hm)
  | sink x rest mem frozen frozen' tables cache =>
    rw [mem, frozen'] at hm
    exact hmiss m (by rw [frozen]; simp at hm ⊢; tauto)
  | same mem frozen tables cache | compact landed mem frozen tables cache
  | look idle mem frozen tables cache => exact hmiss m (by rwa [mem, frozen] at hm)

theorem Change.firstHit_tables (h : Change lands e e')
    (hmiss : ∀ m ∈ e.memtables, m.getEntryVersioned key = none) :
    firstHit e'.tablesLayers key = firstHit e.tablesLayers key ∨
      lands = true ∧ Reworks Tombstone e.tablesLayers e'.tablesLayers := by
  cases h with
  | freeze mem frozen tables cache => exact .inl (by rw [tablesLayers, tables]; rfl)
  | sink m rest mem frozen frozen' tables cache =>
    -- The flushed memtable does not hold the key.
    have hnone : m.layer key = none := hmiss m (by rw [e.memtables_eq, frozen]; simp)
    rw [tablesLayers, tables, firstHit_cons, hnone, none_or]
    exact .inl rfl
  | same mem frozen tables cache => exact .inl (by rw [tablesLayers, tables]; rfl)
  | compact landed mem frozen tables cache => exact .inr ⟨landed, tables⟩
  | look idle mem frozen tables cache => exact .inl (by rw [tablesLayers, tables]; rfl)

theorem Change.cacheSound (h : Change lands e e') (hd : Descending e.tablesLayers)
    (hc : CacheSound e) : CacheSound e' := by
  intro key r hr
  obtain hold | ⟨-, hmiss, heq, htables⟩ := h.cached hr
  · obtain ⟨hmiss, hval⟩ := hc key r hold
    refine ⟨h.misses hmiss, ?_⟩
    obtain hsame | ⟨-, hreworks⟩ := h.firstHit_tables hmiss
    · rwa [hsame]
    · obtain hsame | ⟨hgone, v, hv, htomb⟩ := hreworks.firstHit_thins hd key
      · rwa [hsame]
      · obtain heq | ⟨hnone, -⟩ := hval
        · exact .inr ⟨hgone, v, heq.trans hv, htomb⟩
        · exact absurd (hnone.symm.trans hv) (by simp)
  · exact ⟨h.misses hmiss, .inl (by rwa [tablesLayers, htables])⟩

theorem descending_tablesLayers (h : Descending e.layers) : Descending e.tablesLayers :=
  (pairwise_append.mp h).2.1

-- Reads may stop at the first hit: older sources hold no higher stamps.
structure InOrder (e : Engine) : Prop where
  descending : Descending e.layers
  cache : CacheSound e

theorem Changes.inOrder (h : Changes lands e e') (hin : InOrder e) : InOrder e' := by
  induction h with
  | refl => exact hin
  | tail _ hstep ih =>
    exact ⟨hstep.reworks.descending ih.descending,
      hstep.cacheSound (descending_tablesLayers ih.descending) ih.cache⟩

def NoCachedTombstone (e : Engine) : Prop :=
  ∀ key hlc, e.readCache.get key ≠ some (some (hlc, .delete))

theorem Change.cacheExact (h : Change lands e e') (hin : InOrder e)
    (hx : CacheExact e) (hland : lands = true → NoCachedTombstone e) : CacheExact e' := by
  intro key r hr
  obtain hold | ⟨-, -, heq, htables⟩ := h.cached hr
  · obtain hsame | ⟨landed, -⟩ := h.firstHit_tables (hin.cache key r hold).1
    · exact (hx key r hold).trans hsame.symm
    · obtain ⟨-, heq | ⟨-, ⟨hlc, value⟩, rfl, htomb⟩⟩ :=
        h.cacheSound (descending_tablesLayers hin.descending) hin.cache key r hr
      · exact heq
      · -- Only a cached tombstone can have been dropped.
        obtain rfl : value = .delete := htomb
        exact absurd hold (hland landed key hlc)
  · rwa [tablesLayers, htables]

theorem Change.cache_eq (h : Change true e e') : e'.readCache = e.readCache := by
  cases h with
  | freeze mem frozen tables cache | sink m rest mem frozen frozen' tables cache
  | same mem frozen tables cache | compact landed mem frozen tables cache => exact cache
  | look idle mem frozen tables cache => cases idle

theorem Changes.cacheExact (h : Changes lands e e') (hin : InOrder e)
    (hx : CacheExact e) (hland : lands = true → NoCachedTombstone e) : CacheExact e' := by
  have hkeep : ∀ {x : Engine}, Changes lands e x → lands = true → NoCachedTombstone x := by
    intro x hx' hl
    subst hl
    have hcache : x.readCache = e.readCache := by
      induction hx' with
      | refl => rfl
      | tail _ hstep ih => exact hstep.cache_eq.trans ih
    intro key hlc
    rw [hcache]
    exact hland rfl key hlc
  induction h with
  | refl => exact hx
  | tail hprev hstep ih => exact hstep.cacheExact (Changes.inOrder hprev hin) ih (hkeep hprev)

def WriteAbove (e : Engine) (key : Bytes) (hlc : Hlc) : Prop :=
  (∀ f ∈ e.frozen, ∀ v ∈ f.mem.getEntryVersioned key, v.1 ≤ hlc) ∧
  ∀ t ∈ e.sstablesNewestFirst, ∀ v ∈ t.get key, v.1 ≤ hlc
deriving Decidable

theorem layers_eq (e : Engine) :
    e.layers = e.mem.layer :: (e.frozenMems.reverse.map layer ++ e.tablesLayers) := by
  unfold layers
  rw [e.memtables_eq]
  rfl

theorem writeAbove_of_layers (h : ∀ layer ∈ e.layers, ∀ v, layer key = some v → v.1 ≤ hlc) :
    WriteAbove e key hlc := by
  constructor
  · intro f hf v hv
    refine h f.mem.layer ?_ v hv
    rw [layers_eq]
    simp only [Engine.frozenMems, List.mem_cons, List.mem_append, List.mem_map, List.mem_reverse]
    exact .inr (.inl ⟨f.mem, ⟨f, hf, rfl⟩, rfl⟩)
  · intro t ht v hv
    refine h t.layer ?_ v hv
    simp only [Engine.layers, tableLayers, List.mem_append, List.mem_map]
    exact .inr ⟨t, ht, rfl⟩

theorem layer_insert {m : Memtable} : (m.insert key hlc value).layer other =
      if other = key then pick (some (hlc, value)) (m.layer key) else m.layer other :=
  m.getEntryVersioned_insert key hlc value other

theorem layers_applyWrite {e : Engine} :
    (e.applyWrite key hlc value).layers = (e.mem.insert key hlc value).layer ::
      (e.frozenMems.reverse.map layer ++ e.tablesLayers) :=
  layers_eq _

theorem misses_applyWrite (hne : other ≠ key) (hmiss : ∀ m ∈ e.memtables, m.getEntryVersioned other = none) :
    ∀ m ∈ (e.applyWrite key hlc value).memtables, m.getEntryVersioned other = none := by
  intro m hm
  rw [memtables_eq] at hm hmiss
  obtain rfl | hm := mem_cons.mp hm
  · show (e.mem.insert key hlc value).getEntryVersioned other = none
    rw [getEntryVersioned_insert, if_neg hne]
    exact hmiss e.mem (by simp)
  · exact hmiss m (mem_cons_of_mem _ hm)

theorem CacheSound.applyWrite (h : CacheSound e) (key : Bytes) (hlc : Hlc)
    (value : VersionValue) : CacheSound (e.applyWrite key hlc value) := by
  intro other r hr
  obtain ⟨hne, hr⟩ := ReadCache.get_invalidate hr
  obtain ⟨hmiss, hval⟩ := h other r hr
  exact ⟨misses_applyWrite hne hmiss, hval⟩

theorem WriteAbove.applyWrite (h : WriteAbove e key hlc) (value : VersionValue) (hin : InOrder e) :
    InOrder (e.applyWrite key hlc value) := by
  have hold := hin.descending
  rw [layers_eq] at hold
  obtain ⟨hhead, htail⟩ := pairwise_cons.mp hold
  constructor
  · rw [layers_applyWrite]
    refine pairwise_cons.mpr ⟨?_, htail⟩
    intro older ho other v w hv hw
    rw [layer_insert] at hv
    split_ifs at hv with heq
    · subst heq
      have hle : hlc ≤ v.1 := by
        obtain ⟨u, hu, hle⟩ := le_pick (v := (hlc, value)) (.inl rfl)
        obtain rfl := Option.some.inj (hu.symm.trans hv)
        exact hle
      refine le_trans ?_ hle
      obtain ho | ho := mem_append.mp ho
      · obtain ⟨m, hm, rfl⟩ := mem_map.mp ho
        obtain ⟨f, hf, rfl⟩ := mem_map.mp (mem_reverse.mp hm)
        exact h.1 f hf w hw
      · obtain ⟨t, ht, rfl⟩ := mem_map.mp ho
        exact h.2 t ht w hw
    · exact hhead older ho other v w hv hw
  · exact hin.cache.applyWrite key hlc value

theorem CacheExact.applyWrite (h : CacheExact e) (key : Bytes) (hlc : Hlc)
    (value : VersionValue) : CacheExact (e.applyWrite key hlc value) := by
  intro other r hr
  exact h other r (ReadCache.get_invalidate hr).2

variable (opts : EngineOptions)

theorem openWithOptions_empty : (openWithOptions opts Disk.empty wall).isSome = true := by
  cases heph : opts.ephemeral with
  | true => simp [openWithOptions, heph]
  | false => simp [openWithOptions, heph, loadManifest, Disk.empty]

def Process.fresh (wall : UInt64) : Process :=
  .ofSession ((openWithOptions opts Disk.empty wall).get (openWithOptions_empty opts))

theorem Process.fresh_eq (opts : EngineOptions) (wall : UInt64) : let p := fresh opts wall
    p.engine.mem = new ∧ p.engine.frozen = [] ∧ p.engine.l0 = [] ∧ p.engine.levels = [] ∧
    p.engine.ttlMs = none ∧ p.flushJobs = [] ∧ p.compactJobs = [] ∧
    ∀ key, p.engine.readCache.get key = none := by
  unfold fresh
  generalize hs : (openWithOptions opts Disk.empty wall).get (openWithOptions_empty opts) = s
  have hopen : openWithOptions opts Disk.empty wall = some s := by rw [← hs, some_get]
  obtain ⟨⟨l0, levels, next⟩, hm, rfl⟩ := map_eq_some_iff.mp hopen
  have hempty : l0 = [] ∧ levels = [] := by
    cases heph : opts.ephemeral with
    | true => simp_all
    | false => simp_all [loadManifest, Disk.empty]
  obtain ⟨rfl, rfl⟩ := hempty
  refine ⟨?_, rfl, rfl, rfl, rfl, rfl, rfl, ReadCache.get_new _ _⟩
  cases heph : opts.ephemeral with
  | true => simp [ofSession, replay]
  | false =>
    rfl

theorem Process.fresh_sound (wall : UInt64) : (fresh opts wall).Sound := by
  obtain ⟨hmem, hfrozen, hl0, hlevels, httl, hfj, hcj, -⟩ := fresh_eq opts wall
  generalize fresh opts wall = p at *
  have htables : p.engine.sstablesNewestFirst = [] := by
    simp [sstablesNewestFirst, hl0, hlevels]
  have hres : reserved p.engine p.flushJobs p.compactJobs = [] := by
    simp [reserved, paths, htables, hfj, hcj]
  refine ⟨httl, by rw [hres]; simp, by rw [hres]; simp, by rw [htables]; simp, by rw [hfj]; simp,
    by rw [hcj]; simp, by rw [hfrozen]; simp, by rw [hfrozen]; simp, ?_, by rw [hcj]; simp⟩
  exact .inl ⟨hfj, by rw [hfrozen]; simp⟩

theorem Process.fresh_inOrder : InOrder (fresh opts wall).engine ∧ CacheExact (fresh opts wall).engine := by
  obtain ⟨hmem, hfrozen, hl0, hlevels, -, -, -, hcache⟩ := fresh_eq opts wall
  refine ⟨⟨?_, ?_⟩, ?_⟩
  · rw [layers_eq]
    simp [frozenMems, hfrozen, tablesLayers, tableLayers, sstablesNewestFirst,
      hl0, hlevels, Descending]
  · intro key r hr
    rw [hcache key] at hr
    cases hr
  · intro key r hr
    rw [hcache key] at hr
    cases hr

end Skaidb.Storage
