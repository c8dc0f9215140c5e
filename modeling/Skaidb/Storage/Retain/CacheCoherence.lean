import Skaidb.Storage.Engine.Transparency
import Skaidb.Storage.Retain.InFlight

namespace Skaidb.Storage

open Skaidb.Base List Process Engine ReadCache

def Engine.withoutCache (e : Engine) : Engine := { e with readCache := ReadCache.new 0 0 }

def ReadCache.keys (cache : ReadCache) : List Bytes :=
  cache.shards.flatMap (fun inner => inner.map.entries.map Prod.fst)

theorem ReadCache.mem_keys {cache : ReadCache} (h : cache.get key = some r) : key ∈ cache.keys := by
  obtain ⟨inner, hinner, hr⟩ := Option.bind_eq_some_iff.mp h
  rw [OrdMap.get?_eq_some_iff] at hr
  exact mem_flatMap.mpr ⟨inner, mem_of_getElem? hinner, mem_map.mpr ⟨(key, r), hr, rfl⟩⟩

def Engine.flushedVersions (e : Engine) (key : Bytes) : List Version :=
  e.sstablesNewestFirst.filterMap (fun t => t.get key)

def Engine.FlushedInOrder (e : Engine) (key : Bytes) : Prop :=
  (e.flushedVersions key).Pairwise (fun newer older => older.1 ≤ newer.1)
deriving Decidable

theorem flushedInOrder_iff {e : Engine} : e.FlushedInOrder key ↔ DescendingAt key e.tablesLayers := by
  rw [FlushedInOrder, flushedVersions, pairwise_filterMap, DescendingAt,
    tablesLayers, tableLayers, pairwise_map]
  refine Pairwise.iff ?_
  intro newer older
  exact ⟨fun h v w hv hw => h v hv w hw, fun h v hv w hw => h v w hv hw⟩

def Coherent (e : Engine) : Prop :=
  ∀ key r, e.readCache.get key = some r →
    (∀ m ∈ e.memtables, m.getEntryVersioned key = none) ∧
    r.bind liveVersion = (firstHit e.tablesLayers key).bind liveVersion

section Reads

variable {e : Engine}

theorem get_eq_getVersioned {e : Engine} : (e.get now key).1 = ((e.getVersioned key).1.bind liveVersion).bind
      (fun row => if rowExpired e.ttlMs now row.1 then none else some row.2) := by
  unfold Engine.get
  obtain ⟨_ | ⟨hlc, value⟩, e'⟩ := e.getVersioned key
  · rfl
  · cases value with
    | put bytes => rfl
    | delete => simp [liveVersion, versionToValue]

theorem Coherent.getVersioned (h : Coherent e) (key : Bytes) :
    (e.getVersioned key).1.bind liveVersion = (firstHit e.layers key).bind liveVersion := by
  obtain heq | ⟨hcache, hlayers⟩ := getVersioned_cases
  · rw [heq]
  · rw [hlayers]
    exact (h key _ hcache).2

theorem coherent_of_empty (h : ∀ key, e.readCache.get key = none) : Coherent e := by
  intro key r hr
  rw [h key] at hr
  cases hr

theorem Coherent.get (h : Coherent e) (now : UInt64) (key : Bytes) :
    (e.get now key).1 = (e.withoutCache.get now key).1 := by
  have hempty : Coherent e.withoutCache := coherent_of_empty (fun key => get_new 0 0 key)
  rw [get_eq_getVersioned, get_eq_getVersioned, h.getVersioned, hempty.getVersioned]
  rfl

end Reads

section Changes

variable {e e' : Engine}

def CachedInOrder (e : Engine) : Prop := ∀ key r, e.readCache.get key = some r → DescendingAt key e.tablesLayers

theorem Change.coherent (h : Change lands e e') (hc : Coherent e) (hord : lands = true → CachedInOrder e) :
    Coherent e' := by
  intro key r hr
  obtain hold | ⟨-, hmiss, heq, htables⟩ := h.cached hr
  · obtain ⟨hmiss, hval⟩ := hc key r hold
    refine ⟨h.misses hmiss, ?_⟩
    obtain hsame | ⟨landed, hreworks⟩ := h.firstHit_tables hmiss
    · rwa [hsame]
    · obtain hsame | ⟨hgone, v, hv, htomb⟩ := Reworks.firstHit_at hreworks (hord landed key r hold)
      · rwa [hsame]
      · rw [hv, Option.bind_some, liveVersion_tombstone htomb] at hval
        rw [hgone, hval]
        rfl
  · refine ⟨h.misses hmiss, ?_⟩
    rw [tablesLayers, htables, heq]

theorem Change.cachedInOrder (h : Change true e e') (hc : Coherent e) (hord : CachedInOrder e) :
    CachedInOrder e' := by
  intro key r hr
  rw [h.cache_eq] at hr
  cases h with
  | freeze mem frozen tables cache =>
    rw [tablesLayers, tables]
    exact hord key r hr
  | sink m rest mem frozen frozen' tables cache =>
    have hnone : m.layer key = none := (hc key r hr).1 m (by rw [e.memtables_eq, frozen]; simp)
    rw [tablesLayers, tables]
    refine pairwise_cons.mpr ⟨?_, hord key r hr⟩
    intro older _ v w hv
    rw [hnone] at hv
    cases hv
  | same mem frozen tables cache =>
    rw [tablesLayers, tables]
    exact hord key r hr
  | compact landed mem frozen tables cache => exact Reworks.descendingAt tables (hord key r hr)
  | look idle mem frozen tables cache => cases idle

theorem Changes.coherent (h : Changes lands e e') (hc : Coherent e) (hord : lands = true → CachedInOrder e) :
    Coherent e' := by
  have hboth : Coherent e' ∧ (lands = true → CachedInOrder e') := by
    induction h with
    | refl => exact ⟨hc, hord⟩
    | tail _ hstep ih =>
      refine ⟨hstep.coherent ih.1 ih.2, ?_⟩
      rintro rfl
      exact hstep.cachedInOrder ih.1 (ih.2 rfl)
  exact hboth.1

theorem Coherent.applyWrite (h : Coherent e) (key : Bytes) (hlc : Hlc) (value : VersionValue) :
    Coherent (e.applyWrite key hlc value) := by
  intro other r hr
  obtain ⟨hne, hr⟩ := get_invalidate hr
  obtain ⟨hmiss, hval⟩ := h other r hr
  exact ⟨misses_applyWrite hne hmiss, hval⟩

end Changes

section Runs

def Process.mayCompact (p : Process) : Op → Bool
  | .write .. => 4 ≤ p.engine.frozen.length
  | op => op.lands

-- Where a compaction may land the flushed versions of every cached key are in order, and
-- a retain that rewrites the tables finds no flush job in flight.
def CacheSafe (p : Process) : Call → Prop
  | .op op => p.mayCompact op = true → ∀ key ∈ p.engine.readCache.keys, p.engine.FlushedInOrder key
  | .retain keep => (p.engine.rejected keep).isEmpty = false → p.flushJobs = []

instance (p : Process) (c : Call) : Decidable (CacheSafe p c) :=
  match c with
  | .op _ => inferInstanceAs (Decidable (_ → ∀ key ∈ p.engine.readCache.keys, _))
  | .retain _ => inferInstanceAs (Decidable (_ → _ = _))

structure CacheAgrees (p : Process) : Prop where
  sound : p.Sound
  coherent : Coherent p.engine

theorem CacheAgrees.call {p : Process} (h : CacheAgrees p) (hsafe : CacheSafe p c) :
    CacheAgrees (p.call c) := by
  cases c with
  | op op =>
    have hord : p.mayCompact op = true → CachedInOrder p.engine := fun hm key r hr =>
      flushedInOrder_iff.mp (hsafe hm key (mem_keys hr))
    cases hop : op.isWrite with
    | false =>
      obtain ⟨hsound, hch⟩ := step_maintenance h.sound hop
      refine ⟨hsound, Changes.coherent hch h.coherent (fun hl => hord ?_)⟩
      cases op with
      | write => cases hop
      | _ => exact hl
    | true =>
      cases op with
      | write stamping sync wall now key value =>
        obtain ⟨hsound, hch⟩ := step_write h.sound stamping sync wall now key value
        refine ⟨hsound, Changes.coherent hch (h.coherent.applyWrite key _ value) (fun hl => ?_)⟩
        intro other r hr
        exact hord hl other r (get_invalidate hr).2
      | _ => cases hop
  | retain keep =>
    refine ⟨call_sound h.sound hsafe, ?_⟩
    cases hdrop : (p.engine.rejected keep).isEmpty with
    | true =>
      rw [call_retain_self keep hdrop]
      exact h.coherent
    | false =>
      rw [call_retain keep hdrop]
      exact coherent_of_empty (fun key => get_new _ _ key)

end Runs

-- From an open with its empty cache, in every state of a run of such calls, a get returns
-- what it would return without the cache.
theorem get_eq_get_withoutCache {p : Process} (hp : p.Sound) (hempty : ∀ key, p.engine.readCache.get key = none)
    {calls : List Call} (hrun : Along Process.call CacheSafe p calls) (now : UInt64) (key : Bytes) :
    ((p.runCalls calls).engine.get now key).1 = ((p.runCalls calls).engine.withoutCache.get now key).1 := by
  have hagrees : CacheAgrees (p.runCalls calls) :=
    Along.invariant (fun q c hq hsafe => hq.call hsafe)
      hrun ⟨hp, coherent_of_empty hempty⟩
  exact hagrees.coherent.get now key

section Example

def mergeThree : EngineOptions := ⟨1000, 3, 8, 16, 1000, false⟩

-- Two versions of a key in two tables, a read of it, and a third flush that merges them.
def readThenMerge (first second : Hlc) : List Call :=
  [.op (.write (.given first) true 0 0 [1] (.put [7])), .op (.flush 0),
    .op (.write (.given second) true 0 0 [1] (.put [8])), .op (.flush 0), .op (.read [1]),
    .op (.write (.given ⟨9, 0⟩) true 0 0 [2] (.put [9])), .op (.flush 0), .retain (fun key => key ≠ [2])]

theorem get_eq_get_withoutCache_merged :
    let e := ((fresh mergeThree 0).runCalls (readThenMerge ⟨5, 0⟩ ⟨6, 0⟩)).engine
    (e.get 0 [1]).1 = (e.withoutCache.get 0 [1]).1 :=
  get_eq_get_withoutCache (fresh_sound mergeThree 0) (fresh_eq mergeThree 0).2.2.2.2.2.2.2
    (by decide) 0 [1]

-- The merge brings up the version with the higher stamp, which was further down, and
-- leaves the cache as it is.
theorem cached_get_stale_after_merge :
    let e := ((fresh mergeThree 0).runCalls ((readThenMerge ⟨5, 0⟩ ⟨3, 0⟩).take 7)).engine
    (e.get 0 [1]).1 = some [8] ∧ (e.withoutCache.get 0 [1]).1 = some [7] := by
  decide

end Example

end Skaidb.Storage
