import Skaidb.Storage.Engine.Reads

namespace Skaidb.Storage

open Skaidb.Base List OrdMap Option Process Engine Memtable

def liveVersion (v : Version) : Option (Hlc × Bytes) := (versionToValue v.2).map (fun bytes => (v.1, bytes))

theorem liveVersion_tombstone (h : Tombstone v) : liveVersion v = none := by
  obtain ⟨hlc, value⟩ := v
  obtain rfl : value = .delete := h
  rfl

theorem live_of_thins (h : Thins Tombstone full thin) :
    (thin key).bind liveVersion = (full key).bind liveVersion := by
  obtain heq | ⟨hnone, v, hv, htomb⟩ := h key
  · rw [heq]
  · rw [hnone, hv, bind_some, liveVersion_tombstone htomb]
    rfl

variable {e : Engine}

theorem liveRow_eq (httl : e.ttlMs = none) :
    e.liveRow now (key, v) = (liveVersion v).map (fun row => (key, row)) := by
  obtain ⟨hlc, _ | _⟩ := v
  · simp [liveRow, rowExpired, httl, liveVersion, versionToValue]
  · rfl

theorem liveRows_spec (httl : e.ttlMs = none) {items : List (Bytes × Version)}
    (hs : items.Pairwise (fun a b => a.1 < b.1)) :
    (items.filterMap (e.liveRow now)).Pairwise (fun a b => a.1 < b.1) ∧
    ∀ key, OrdMap.lookup (items.filterMap (e.liveRow now)) key =
      (OrdMap.lookup items key).bind liveVersion := by
  have hmem : ∀ key row, (key, row) ∈ items.filterMap (e.liveRow now) ↔
      ∃ v, (key, v) ∈ items ∧ liveVersion v = some row := by
    intro key row
    rw [mem_filterMap]
    constructor
    · rintro ⟨⟨k, v⟩, hin, hrow⟩
      rw [liveRow_eq httl] at hrow
      obtain ⟨row', hlive, heq⟩ := map_eq_some_iff.mp hrow
      cases heq
      exact ⟨v, hin, hlive⟩
    · rintro ⟨v, hin, hlive⟩
      exact ⟨(key, v), hin, by rw [liveRow_eq httl, hlive]; rfl⟩
  have hsorted : (items.filterMap (e.liveRow now)).Pairwise (fun a b => a.1 < b.1) := by
    refine hs.filterMap _ ?_
    rintro ⟨k, v⟩ ⟨k', v'⟩ hlt row hrow row' hrow'
    rw [liveRow_eq httl, map_eq_some_iff] at hrow hrow'
    obtain ⟨_, -, rfl⟩ := hrow
    obtain ⟨_, -, rfl⟩ := hrow'
    exact hlt
  refine ⟨hsorted, ?_⟩
  intro key
  apply ext
  intro row
  rw [lookup_eq_some_iff hsorted, hmem, bind_eq_some_iff]
  simp only [lookup_eq_some_iff hs]

theorem mergedRange_spec {e : Engine} {items : List (Bytes × Version)}
    (h : e.mergedRange start finish = some items) : items.Pairwise (fun a b => a.1 < b.1) ∧
    ∀ key, OrdMap.lookup items key = if inRange start finish key then newest e.layers key else none := by
  unfold Engine.mergedRange at h
  split_ifs at h with hinv
  cases h
  have hrange : ∀ m : Memtable, m.rangeLatest start finish =
      some ((m.rangeLatest start finish).getD []) := by
    intro m
    simp [rangeLatest, hinv]
  obtain ⟨hs, hl⟩ := KWayMerge.run_spec
    (e.memtables.map (fun m => (m.rangeLatest start finish).getD []) ++
      e.sstablesNewestFirst.map (fun t => t.entries.entries.filter (fun e => inRange start finish e.1)))
    (by
      intro items hi
      obtain hi | hi := mem_append.mp hi
      · obtain ⟨m, -, rfl⟩ := mem_map.mp hi
        exact (rangeLatest_spec (hrange m)).1
      · obtain ⟨t, -, rfl⟩ := mem_map.mp hi
        exact t.entries.sorted.filter _)
  refine ⟨hs, ?_⟩
  intro key
  refine (hl key).trans ?_
  rw [List.map_append, List.map_map, List.map_map]
  by_cases hin : inRange start finish key
  · -- Inside the range every source shows what its full layer shows.
    rw [if_pos hin]
    refine newest_congr ?_
    unfold layers tableLayers
    rw [List.map_append, List.map_append, List.map_map, List.map_map, List.map_map, List.map_map]
    congr 1
    · refine map_congr_left ?_
      intro m _
      exact ((rangeLatest_spec (hrange m)).2 key).trans (if_pos hin)
    · refine map_congr_left ?_
      intro t _
      exact (OrdMap.lookup_filter_key ..).trans (if_pos hin)
  · rw [if_neg hin]
    refine newest_eq_none ?_
    intro layer hlayer
    obtain hlayer | hlayer := mem_append.mp hlayer
    · obtain ⟨m, -, rfl⟩ := mem_map.mp hlayer
      exact ((rangeLatest_spec (hrange m)).2 key).trans (if_neg hin)
    · obtain ⟨t, -, rfl⟩ := mem_map.mp hlayer
      exact (OrdMap.lookup_filter_key ..).trans (if_neg hin)

structure SameReads (e e' : Engine) : Prop where
  get : ∀ now key, (e'.get now key).1 = (e.get now key).1
  scanVersioned : ∀ now, e'.scanVersioned now = e.scanVersioned now
  scan : ∀ now, e'.scan now = e.scan now
  scanRange : ∀ now start finish, e'.scanRange now start finish = e.scanRange now start finish

theorem get_eq_live (httl : e.ttlMs = none) (hc : CacheSound e) :
    (e.get now key).1 = ((firstHit e.layers key).bind liveVersion).map Prod.snd := by
  have hread : (e.get now key).1 = ((e.getVersioned key).1.bind liveVersion).map Prod.snd := by
    unfold Engine.get
    obtain ⟨_ | ⟨hlc, value⟩, e'⟩ := e.getVersioned key
    · rfl
    · cases value with
      | put bytes => simp [rowExpired, httl, liveVersion, versionToValue]
      | delete => simp [liveVersion, versionToValue]
  obtain heq | ⟨hnone, v, hv, htomb⟩ := getVersioned_spec hc
  · rw [hread, heq]
  · rw [hread, hnone, hv, bind_some, liveVersion_tombstone htomb]
    rfl

theorem sameReads_of_thins {e' : Engine} (httl : e.ttlMs = none) (httl' : e'.ttlMs = none)
    (hin : InOrder e) (hin' : InOrder e')
    (h : Thins Tombstone (firstHit e.layers) (firstHit e'.layers)) : SameReads e e' := by
  have hlive : ∀ key, (newest e'.layers key).bind liveVersion =
      (newest e.layers key).bind liveVersion := by
    intro key
    rw [newest_eq_firstHit hin.descending, newest_eq_firstHit hin'.descending, live_of_thins h]
  have hscan : ∀ now, e'.scanVersioned now = e.scanVersioned now := by
    intro now
    obtain ⟨hs, hl⟩ := liveRows_spec httl mergedIter_spec.1
    obtain ⟨hs', hl'⟩ := liveRows_spec httl' mergedIter_spec.1
    refine eq_of_lookup_eq hs' hs ?_
    intro key
    unfold scanVersioned
    rw [hl, hl', mergedIter_spec.2, mergedIter_spec.2, hlive]
  refine ⟨?_, hscan, ?_, ?_⟩
  · intro now key
    rw [get_eq_live httl hin.cache, get_eq_live httl' hin'.cache, live_of_thins h]
  · intro now
    rw [scan, scan, hscan]
  · intro now start finish
    unfold scanRange
    by_cases hinv : inverted start finish = true
    · simp [mergedRange, hinv]
    · obtain ⟨items, hitems⟩ : ∃ items, e.mergedRange start finish = some items := by
        simp [mergedRange, hinv]
      obtain ⟨items', hitems'⟩ : ∃ items, e'.mergedRange start finish = some items := by
        simp [mergedRange, hinv]
      obtain ⟨hsorted, hlookup⟩ := mergedRange_spec hitems
      obtain ⟨hsorted', hlookup'⟩ := mergedRange_spec hitems'
      obtain ⟨hs, hl⟩ := liveRows_spec httl hsorted
      obtain ⟨hs', hl'⟩ := liveRows_spec httl' hsorted'
      have hrows : items'.filterMap (e'.liveRow now) = items.filterMap (e.liveRow now) := by
        refine eq_of_lookup_eq hs' hs ?_
        intro key
        rw [hl, hl', hlookup, hlookup']
        split_ifs
        · exact hlive key
        · rfl
      rw [hitems, hitems', map_some, map_some, hrows]

def Op.written (clock : HlcClock) : Op → Option (Bytes × Hlc)
  | .write stamping _ wall _ key _ => some (key, Session.stamp clock wall stamping)
  | _ => none

def Process.writes : Process → List Op → List (Bytes × Hlc)
  | _, [] => []
  | p, op :: ops => (op.written p.engine.clock).toList ++ Process.writes (p.step op) ops

def StampsIncrease (writes : List (Bytes × Hlc)) : Prop :=
  writes.Pairwise (fun a b => a.1 = b.1 → a.2 < b.2)
deriving Decidable

def Engine.afterWrite (e : Engine) : Op → Engine
  | .write stamping _ wall _ key value => e.applyWrite key (Session.stamp e.clock wall stamping) value
  | _ => e

def Known (e : Engine) (writes : List (Bytes × Hlc)) : Prop :=
  ∀ layer ∈ e.layers, ∀ key v, layer key = some v → (key, v.1) ∈ writes

variable {writes : List (Bytes × Hlc)}

theorem Known.changes (h : Known e writes) (hch : Changes lands e e') : Known e' writes := by
  intro layer hl key v hv
  obtain ⟨source, hs, hsv⟩ := (Changes.reworks hch).version_mem hl hv
  exact h source hs key v hsv

theorem Known.applyWrite (h : Known e writes) (key : Bytes) (hlc : Hlc) (value : VersionValue) :
    Known (e.applyWrite key hlc value) (writes ++ [(key, hlc)]) := by
  intro layer hl other v hv
  rw [layers_applyWrite] at hl
  have hold := layers_eq e
  obtain rfl | hl := mem_cons.mp hl
  · have hmem : e.mem.layer ∈ e.layers := by simp [hold]
    rw [layer_insert] at hv
    split_ifs at hv with heq
    · subst heq
      obtain hp | hp := pick_eq_or (some (hlc, value)) (e.mem.layer other)
      · rw [hp] at hv
        cases hv
        simp
      · rw [hp] at hv
        exact mem_append_left _ (h _ hmem other v hv)
    · exact mem_append_left _ (h _ hmem other v hv)
  · exact mem_append_left _ (h layer (by simpa [hold] using .inr (by simpa using hl)) other v hv)

-- A process whose sources are in order and show only the given writes.
structure Orderly (p : Process) (writes : List (Bytes × Hlc)) : Prop where
  sound : p.Sound
  inOrder : InOrder p.engine
  known : Known p.engine writes

theorem Orderly.fresh (opts : EngineOptions) (wall : UInt64) : Orderly (fresh opts wall) [] := by
  refine ⟨fresh_sound opts wall, (fresh_inOrder opts).1, ?_⟩
  obtain ⟨hmem, hfrozen, hl0, hlevels, -⟩ := fresh_eq opts wall
  intro layer hl key v hv
  rw [layers_eq, tablesLayers, frozenMems, sstablesNewestFirst, hmem, hfrozen, hl0,
    hlevels] at hl
  obtain rfl : layer = new.layer := by simpa [tableLayers] using hl
  cases hv

theorem Orderly.step {p : Process} {op : Op} (h : Orderly p writes)
    (hincr : StampsIncrease (writes ++ (op.written p.engine.clock).toList)) :
    Orderly (p.step op) (writes ++ (op.written p.engine.clock).toList) ∧
    SameReads (p.engine.afterWrite op) (p.step op).engine := by
  have hreads : ∀ {lands : Bool} {e : Engine}, e.ttlMs = none → InOrder e → (p.step op).Sound →
      Changes lands e (p.step op).engine →
      InOrder (p.step op).engine ∧ SameReads e (p.step op).engine := by
    intro lands e httl hin hsound hch
    have hin' := Changes.inOrder hch hin
    exact ⟨hin', sameReads_of_thins httl hsound.ttl hin hin'
      ((Changes.reworks hch).firstHit_thins hin.descending)⟩
  by_cases hw : op.isWrite = true
  · cases op with
    | write stamping sync wall now key value =>
      obtain ⟨hsound, hch⟩ := step_write h.sound stamping sync wall now key value
      have hnew : ∀ w ∈ writes, w.1 = key → w.2 < Session.stamp p.engine.clock wall stamping := by
        intro w hw' heq
        exact (pairwise_append.mp hincr).2.2 w hw' _ mem_cons_self heq
      have habove : WriteAbove p.engine key (Session.stamp p.engine.clock wall stamping) :=
        writeAbove_of_layers (fun layer hl v hv => (hnew _ (h.known layer hl key v hv) rfl).le)
      have hin := habove.applyWrite value h.inOrder
      have httl : (p.engine.applyWrite key (Session.stamp p.engine.clock wall stamping) value).ttlMs =
          none := h.sound.ttl
      obtain ⟨hin', hsame⟩ := hreads httl hin hsound hch
      exact ⟨⟨hsound, hin', (h.known.applyWrite key _ value).changes hch⟩, hsame⟩
    | _ => cases hw
  · have hop : op.written p.engine.clock = none ∧ p.engine.afterWrite op = p.engine := by
      cases op with
      | write => exact absurd rfl hw
      | _ => exact ⟨rfl, rfl⟩
    have hread : op.isWrite = false := by simpa using hw
    obtain ⟨hsound, hch⟩ := step_maintenance h.sound hread
    obtain ⟨hin', hsame⟩ := hreads h.sound.ttl h.inOrder hsound hch
    rw [hop.1, hop.2]
    exact ⟨⟨hsound, hin', by simpa using h.known.changes hch⟩, hsame⟩

theorem Orderly.run {p : Process} (h : Orderly p writes) (ops : List Op)
    (hincr : StampsIncrease (writes ++ p.writes ops)) : Orderly (p.runOps ops) (writes ++ p.writes ops) := by
  induction ops generalizing p writes with
  | nil => simpa [Process.writes, Process.runOps] using h
  | cons op ops ih =>
    rw [Process.writes, ← append_assoc] at hincr ⊢
    have hfirst := (h.step (pairwise_append.mp hincr).1).1
    exact ih hfirst hincr

theorem Process.writes_concat {p : Process} {op : Op} :
    p.writes (ops ++ [op]) = p.writes ops ++ (op.written (p.runOps ops).engine.clock).toList := by
  induction ops generalizing p with
  | nil => simp [writes, runOps]
  | cons first ops ih => simp [writes, ih, runOps]

-- In a run whose stamps increase per key, every step leaves the live rows as
-- they were: those before it, or after the write alone when it is a write.
theorem sameReads_step (opts : EngineOptions) (wall : UInt64) (ops : List Op) (op : Op)
    (hincr : StampsIncrease ((Process.fresh opts wall).writes (ops ++ [op]))) :
    let p := (fresh opts wall).runOps ops
    SameReads (p.engine.afterWrite op) (p.step op).engine := by
  rw [writes_concat] at hincr
  have hrun := (Orderly.fresh opts wall).run ops (pairwise_append.mp hincr).1
  exact (hrun.step hincr).2

def flushInBackground : List Op := [.freeze, .takeFlush, .buildFlush 0, .installFlush 0]

-- A put and the delete of its row are in two tables when the compaction takes them; another
-- table lands before its output is installed.
def compactAcrossFlush : List Op :=
  .write .clock true 5 0 [1] (.put [7]) :: flushInBackground ++
    .write .clock true 6 0 [1] .delete :: flushInBackground ++
    [.takeCompact 100, .buildCompact 0] ++ .write .clock true 7 0 [2] (.put [8]) :: flushInBackground

theorem sameReads_compactAcrossFlush : let p := (fresh ⟨100, 2, 8, 16, 1000, false⟩ 0).runOps compactAcrossFlush
    SameReads p.engine (p.step (.installCompact 0)).engine ∧ p.compactJobs.length = 1 ∧ p.engine.l0.length = 3 ∧
      (p.step (.installCompact 0)).engine.l0.length = 1 :=
  ⟨sameReads_step ⟨100, 2, 8, 16, 1000, false⟩ 0 compactAcrossFlush (.installCompact 0) (by decide), by decide,
    by decide, by decide⟩

end Skaidb.Storage
