import Skaidb.Storage.Recovery.Reopen
import Skaidb.Storage.Retain.InFlight

namespace Skaidb.Storage

open Skaidb.Base List Option Process Disk Engine OrdMap

def Engine.scanned (e : Engine) (key : Bytes) : Option Version :=
  OrdMap.lookup e.scanVersionedWithTombstones key

theorem Engine.scanned_eq (e : Engine) (key : Bytes) : e.scanned key = newest e.layers key :=
  mergedIter_spec.2 key

def replayed (records : List WalRecord) (tables : List SsTable) (key : Bytes) : Option Version :=
  newest ((Memtable.replay records).layer :: tableLayers tables) key

section

variable (p : Process) (keep : Bytes → Bool)

def Process.crashInRetain (cut kept : Nat) (wall : UInt64) : Option Session :=
  openWithOptions p.engine.opts
    ((p.disk.applyAll ((p.execCall (.retain keep)).2.take cut)).crash kept) wall

-- Wherever the crash comes, the next open finds every accepted key as it was.
def CrashAtomic : Prop :=
  ∀ cut kept wall, ∃ s, p.crashInRetain keep cut kept wall = some s ∧
    ∀ key, keep key = true → s.engine.scanned key = p.engine.scanned key

-- The log records that outlast every crash inside the retain: the synced ones
-- when it has nothing to drop, else the segments past the number it drops to.
def Process.lasting : List WalRecord :=
  if (p.engine.rejected keep).isEmpty then
    p.disk.sealedRecords ++ p.disk.activeRecords.take p.disk.syncedCount
  else ((p.disk.segments.entries.filter (fun e => p.engine.nextWalSeq < e.1)).map Prod.snd).flatten

-- With the whole log and with the lasting part alone, the files give every
-- accepted key its current version.
def OnFile : Prop :=
  ∀ key, keep key = true →
    replayed p.disk.replayRecords p.engine.sstablesNewestFirst key = p.engine.scanned key ∧
    replayed (p.lasting keep) p.engine.sstablesNewestFirst key = p.engine.scanned key

def Process.Filed (key : Bytes) (v : Version) : Prop :=
  (∃ r ∈ p.disk.replayRecords, r.key = key ∧ (r.hlc, r.op) = v) ∨
    ∃ t ∈ p.engine.sstablesNewestFirst, t.get key = some v

def StampsDistinct : Prop :=
  ∀ key, keep key = true → ∀ v w, p.Filed key v → p.Filed key w → v.1 = w.1 → v = w

def Process.Reopens (d : Disk) (wall : UInt64) : Prop :=
  ∃ s, openWithOptions p.engine.opts d wall = some s ∧
    ∀ key, keep key = true → s.engine.scanned key = p.engine.scanned key

end

section Replayed

variable {tables : List SsTable}

theorem exists_of_replayed (h : replayed records tables key = some v) :
    (∃ r ∈ records, r.key = key ∧ (r.hlc, r.op) = v) ∨ ∃ t ∈ tables, t.get key = some v := by
  obtain ⟨layer, hl, hv⟩ := exists_of_newest_eq_some h
  obtain rfl | hl := mem_cons.mp hl
  · obtain ⟨r, hr, heq⟩ := mem_map.mp (layerOf_replay.known key v hv)
    obtain ⟨hkey, hver⟩ := Prod.mk.inj heq
    exact .inl ⟨r, hr, hkey, hver⟩
  · obtain ⟨t, ht, rfl⟩ := mem_map.mp hl
    exact .inr ⟨t, ht, hv⟩

theorem le_replayed_of_record {r : WalRecord} (hr : r ∈ records) :
    ∃ v, replayed records tables r.key = some v ∧ r.hlc ≤ v.1 := by
  obtain ⟨v, hv, hle⟩ := layerOf_replay.reaches r.write (mem_map_of_mem hr)
  obtain ⟨w, hw, hvw⟩ := newest_le_of_mem (mem_cons_self ..) hv
  exact ⟨w, hw, hle.trans hvw⟩

theorem le_replayed_of_table {t : SsTable} (ht : t ∈ tables) (hv : t.get key = some v) :
    ∃ w, replayed records tables key = some w ∧ v.1 ≤ w.1 :=
  newest_le_of_mem (mem_cons_of_mem _ (mem_map_of_mem ht)) hv

end Replayed

section Reopened

variable {p : Process} {d : Disk}

theorem open_scanned {opts : EngineOptions} (hpersist : opts.ephemeral = false) (l0 levels : List SsTable)
    (hm : d.manifest = some (manifestOf l0 levels) ∨ (d.manifest = none ∧ l0 = [] ∧ levels = []))
    (hfiles : ∀ t ∈ l0 ++ levels, d.tables.get? t.path = some t.entries) (wall : UInt64) :
    ∃ s, openWithOptions opts d wall = some s ∧
      ∀ key, s.engine.scanned key = replayed d.replayRecords (l0 ++ levels) key := by
  obtain ⟨next, hload, -⟩ := loadManifest_eq hm hfiles
  have hopen : ∃ s, openWithOptions opts d wall = some s ∧
      s.engine.mem = Memtable.replay d.replayRecords ∧ s.engine.frozen = [] ∧ s.engine.l0 = l0 ∧
      s.engine.levels = levels := by
    simp only [openWithOptions, hpersist, hload, map_some, Bool.false_eq_true, if_false]
    exact ⟨_, rfl, rfl, rfl, rfl, rfl⟩
  obtain ⟨s, hs, hmem, hfrozen, hl0, hlevels⟩ := hopen
  refine ⟨s, hs, ?_⟩
  intro key
  rw [scanned_eq, layers_eq, frozenMems, tablesLayers, sstablesNewestFirst,
    hmem, hfrozen, hl0, hlevels]
  rfl

structure Early (p : Process) (d : Disk) : Prop where
  manifest : d.manifest = p.disk.manifest
  tables : ∀ n ∈ p.engine.paths, d.tables.get? n = p.disk.tables.get? n
  wal : d.wal = p.disk.wal ∨ d.wal = some ⟨[], 0⟩
  segments : ∀ n, d.segments.get? n = p.disk.segments.get? n ∨
    (n ≤ p.engine.nextWalSeq ∧ d.segments.get? n = none)

theorem Early.refl (p : Process) : Early p p.disk :=
  ⟨rfl, fun _ _ => rfl, .inl rfl, fun _ => .inl rfl⟩

def Engine.earlyEffects (e : Engine) (keep : Bytes → Bool) (d : Disk) : List Effect :=
  (e.survivorTable keep).toList.map Effect.writeTable ++
    (if e.opts.ephemeral then [] else [.createWal]) ++ (e.droppedSegments d).map Effect.removeSegment

theorem Early.apply (h : Early p d) (hnew : p.engine.nextSeq ∉ p.engine.paths)
    (he : e ∈ p.engine.earlyEffects keep p.disk) : Early p (d.apply e) := by
  unfold Engine.earlyEffects at he
  simp only [List.mem_append, List.mem_map] at he
  obtain (⟨t, ht, rfl⟩ | he) | ⟨n, hn, rfl⟩ := he
  · refine ⟨h.manifest, ?_, h.wal, h.segments⟩
    intro n hn
    have hne : n ≠ t.path := by
      rw [(get?_writeSurvivors p.engine keep p.disk ht).1]
      exact fun heq => hnew (heq ▸ hn)
    simp only [Disk.apply, OrdMap.get?_insert, if_neg hne]
    exact h.tables n hn
  · split_ifs at he
    · simp at he
    · obtain rfl := List.mem_singleton.mp he
      exact ⟨h.manifest, h.tables, .inr rfl, h.segments⟩
  · have hle : n ≤ p.engine.nextWalSeq := by simpa using (List.mem_filter.mp hn).2
    refine ⟨h.manifest, h.tables, h.wal, ?_⟩
    intro m
    simp only [Disk.apply, OrdMap.get?_erase]
    split_ifs with hm
    · exact .inr ⟨hm ▸ hle, rfl⟩
    · exact h.segments m

theorem Early.applyAll (hnew : p.engine.nextSeq ∉ p.engine.paths) {es : List Effect} (h : Early p d)
    (hes : ∀ e ∈ es, e ∈ p.engine.earlyEffects keep p.disk) : Early p (d.applyAll es) := by
  induction es generalizing d with
  | nil => exact h
  | cons e es ih =>
    exact ih (h.apply hnew (hes e (by simp))) (fun x hx => hes x (by simp [hx]))

theorem Early.opens (h : Early p d) (hp : p.Sound) (hm : Persisted p.engine p.disk)
    (hpersist : p.engine.opts.ephemeral = false) (kept : Nat) (wall : UInt64) :
    ∃ s, openWithOptions p.engine.opts (d.crash kept) wall = some s ∧ ∀ key, s.engine.scanned key =
        replayed (d.crash kept).replayRecords p.engine.sstablesNewestFirst key := by
  refine open_scanned hpersist p.engine.l0 p.engine.levels ?_ ?_ wall
  · rw [show (d.crash kept).manifest = d.manifest from rfl, h.manifest]
    exact hm
  · intro t ht
    rw [show (d.crash kept).tables = d.tables from rfl, h.tables t.path (mem_map_of_mem ht)]
    exact hp.on_disk t ht

theorem Disk.mem_replayRecords {d : Disk} : r ∈ d.replayRecords ↔
      (∃ n records, d.segments.get? n = some records ∧ r ∈ records) ∨ r ∈ d.activeRecords := by
  unfold Disk.replayRecords Disk.activeRecords
  simp only [List.mem_append, List.mem_flatten, List.mem_map, OrdMap.get?_eq_some_iff]
  constructor
  · rintro (⟨records, ⟨⟨n, _⟩, he, rfl⟩, hr⟩ | hr)
    · exact .inl ⟨n, _, he, hr⟩
    · exact .inr hr
  · rintro (⟨n, records, he, hr⟩ | hr)
    · exact .inl ⟨records, ⟨(n, records), he, rfl⟩, hr⟩
    · exact .inr hr

theorem Disk.activeRecords_crash {d : Disk} :
    (d.crash kept).activeRecords = d.activeRecords.take (max d.syncedCount kept) := by
  unfold activeRecords syncedCount crash
  cases d.wal <;> simp

theorem Early.replay_sub (h : Early p d) (kept : Nat) :
    ∀ r ∈ (d.crash kept).replayRecords, r ∈ p.disk.replayRecords := by
  intro r hr
  rw [mem_replayRecords] at hr ⊢
  obtain ⟨n, records, hget, hr⟩ | hr := hr
  · obtain heq | ⟨-, hnone⟩ := h.segments n
    · exact .inl ⟨n, records, heq ▸ hget, hr⟩
    · rw [show (d.crash kept).segments = d.segments from rfl, hnone] at hget
      cases hget
  · rw [activeRecords_crash] at hr
    have hactive := mem_of_mem_take hr
    obtain hwal | hwal := h.wal
    · rw [activeRecords, hwal] at hactive
      exact .inr hactive
    · simp [activeRecords, hwal] at hactive

theorem Early.lasting_sub (h : Early p d) (hdrop : (p.engine.rejected keep).isEmpty = false) (kept : Nat) :
    ∀ r ∈ p.lasting keep, r ∈ (d.crash kept).replayRecords := by
  intro r hr
  rw [lasting, if_neg (by simp [hdrop])] at hr
  simp only [List.mem_flatten, List.mem_map, List.mem_filter, decide_eq_true_eq] at hr
  obtain ⟨_, ⟨⟨n, records⟩, ⟨he, hlt⟩, rfl⟩, hr⟩ := hr
  rw [Disk.mem_replayRecords]
  refine .inl ⟨n, records, ?_, hr⟩
  obtain heq | ⟨hle, -⟩ := h.segments n
  · rw [show (d.crash kept).segments = d.segments from rfl, heq, get?_eq_some_iff]
    exact he
  · simp only at hlt
    omega

theorem lasting_sub_replay {p : Process} : ∀ r ∈ p.lasting keep, r ∈ p.disk.replayRecords := by
  cases hdrop : (p.engine.rejected keep).isEmpty with
  | false => exact fun r hr => (Early.refl p).replay_sub 0 r ((Early.refl p).lasting_sub hdrop 0 r hr)
  | true =>
    intro r hr
    rw [lasting, if_pos hdrop] at hr
    obtain hr | hr := mem_append.mp hr
    · exact mem_append_left _ hr
    · exact mem_append_right _ (mem_of_mem_take hr)

structure Late (p : Process) (keep : Bytes → Bool) (d : Disk) : Prop where
  manifest : d.manifest = some (p.engine.afterRetain keep).manifestLines
  tables : ∀ t ∈ (p.engine.survivorTable keep).toList, d.tables.get? t.path = some t.entries
  log : ∀ kept, ∀ r ∈ (d.crash kept).replayRecords, r ∈ p.disk.replayRecords

theorem Late.removeTables {paths : List Nat} (h : Late p keep d) (hnew : p.engine.nextSeq ∉ paths) :
    Late p keep (d.applyAll (paths.map Effect.removeTable)) := by
  induction paths generalizing d with
  | nil => exact h
  | cons n paths ih =>
    refine ih ⟨h.manifest, ?_, h.log⟩ (fun hmem => hnew (by simp [hmem]))
    intro t ht
    have hne : t.path ≠ n := by
      rw [(get?_writeSurvivors p.engine keep p.disk ht).1]
      exact fun heq => hnew (by simp [heq])
    simp only [apply, get?_erase, if_neg hne]
    exact h.tables t ht

theorem late_of_early (hnew : p.engine.nextSeq ∉ p.engine.paths) :
    Late p keep ((p.disk.applyAll (p.engine.earlyEffects keep p.disk)).apply
      (.writeManifest (p.engine.afterRetain keep).manifestLines)) := by
  have hearly : Early p (p.disk.applyAll (p.engine.earlyEffects keep p.disk)) :=
    (Early.refl p).applyAll hnew (fun _ he => he)
  refine ⟨rfl, ?_, hearly.replay_sub⟩
  intro t ht
  have htables : (p.disk.applyAll (p.engine.earlyEffects keep p.disk)).tables =
      (p.disk.applyAll ((p.engine.survivorTable keep).toList.map Effect.writeTable)).tables := by
    unfold earlyEffects
    rw [applyAll_append, tables_removeSegments, applyAll_append]
    split_ifs <;> rfl
  show (p.disk.applyAll (p.engine.earlyEffects keep p.disk)).tables.get? t.path = _
  rw [htables]
  exact (get?_writeSurvivors p.engine keep p.disk ht).2

theorem retainEffects_eq {p : Process} :
    p.engine.retainEffects keep p.disk = p.engine.earlyEffects keep p.disk ++
      (.writeManifest (p.engine.afterRetain keep).manifestLines :: p.engine.paths.map Effect.removeTable) := by
  unfold retainEffects earlyEffects paths
  rw [append_assoc _ [_] _]
  rfl

theorem early_or_late (hnew : p.engine.nextSeq ∉ p.engine.paths) :
    Early p (p.disk.applyAll ((p.engine.retainEffects keep p.disk).take cut)) ∨
    Late p keep (p.disk.applyAll ((p.engine.retainEffects keep p.disk).take cut)) := by
  rw [retainEffects_eq, take_append, applyAll_append]
  by_cases hcut : cut ≤ (p.engine.earlyEffects keep p.disk).length
  · left
    rw [Nat.sub_eq_zero_of_le hcut, take_zero]
    exact (Early.refl p).applyAll hnew (fun _ he => mem_of_mem_take he)
  · right
    obtain ⟨k, hk⟩ : ∃ k, cut - (p.engine.earlyEffects keep p.disk).length = k + 1 :=
      Nat.exists_eq_succ_of_ne_zero (by omega)
    rw [hk, take_succ_cons, take_of_length_le (by omega), ← map_take]
    exact (late_of_early hnew).removeTables (fun hmem => hnew (mem_of_mem_take hmem))

variable {e : Engine}

theorem get?_survivors (hkeep : keep key = true) : (e.survivors keep).get? key = e.scanned key := by
  have hfilter : e.survivors keep =
      filter ⟨e.mergedIter, mergedIter_spec.1⟩ (fun row => keep row.1) := rfl
  rw [hfilter, get?_filter]
  apply ext
  intro v
  simp [filter_eq_some_iff, hkeep, scanned, scanVersionedWithTombstones, get?]

theorem get_survivorTable {t : SsTable} (ht : t ∈ (e.survivorTable keep).toList)
    (hkeep : keep key = true) : t.get key = e.scanned key := by
  unfold survivorTable at ht
  split_ifs at ht
  · simp at ht
  · obtain rfl : t = ⟨e.nextSeq, e.survivors keep⟩ := by simpa using ht
    exact get?_survivors hkeep

theorem exists_survivorTable (hkeep : keep key = true)
    (hv : e.scanned key = some v) : ∃ t ∈ (e.survivorTable keep).toList, t.get key = some v := by
  rw [← get?_survivors hkeep] at hv
  refine ⟨⟨e.nextSeq, e.survivors keep⟩, ?_, hv⟩
  unfold survivorTable
  split_ifs with hempty
  · unfold get? at hv
    rw [isEmpty_iff.mp hempty] at hv
    cases hv
  · simp

end Reopened

section Between

variable {p : Process} (hfile : OnFile p keep) (hkeep : keep key = true)

include hfile hkeep

theorem Filed.le_scanned (hv : p.Filed key v) : ∃ w, p.engine.scanned key = some w ∧ v.1 ≤ w.1 := by
  rw [← (hfile key hkeep).1]
  obtain ⟨r, hr, rfl, rfl⟩ | ⟨t, ht, hget⟩ := hv
  · exact le_replayed_of_record hr
  · exact le_replayed_of_table ht hget

theorem Filed.of_lasting (hv : p.engine.scanned key = some v) : p.Filed key v := by
  rw [← (hfile key hkeep).2] at hv
  obtain ⟨r, hr, hkey, hver⟩ | ht := exists_of_replayed hv
  · exact .inl ⟨r, lasting_sub_replay r hr, hkey, hver⟩
  · exact .inr ht

theorem eq_scanned_of_between (hd : StampsDistinct p keep) (hknown : ∀ v, found = some v → p.Filed key v)
    (hreach : ∀ v, p.engine.scanned key = some v → ∃ w, found = some w ∧ v.1 ≤ w.1) :
    found = p.engine.scanned key := by
  cases hs : p.engine.scanned key with
  | none =>
    cases hf : found with
    | none => rfl
    | some w =>
      obtain ⟨v, hv, -⟩ := Filed.le_scanned hfile hkeep (hknown w hf)
      rw [hs] at hv
      cases hv
  | some v =>
    obtain ⟨w, hw, hle⟩ := hreach v hs
    obtain ⟨u, hu, hwu⟩ := Filed.le_scanned hfile hkeep (hknown w hw)
    rw [hs] at hu
    cases hu
    rw [hw, hd key hkeep w v (hknown w hw) (Filed.of_lasting hfile hkeep hs) (le_antisymm hwu hle)]

end Between

section Atomic

variable {p : Process} {d : Disk}

-- A crash before the manifest is written leaves a part of the log between the
-- lasting records and all of them.
theorem Early.atomic (h : Early p d) (hp : p.Sound) (hm : Persisted p.engine p.disk)
    (hpersist : p.engine.opts.ephemeral = false)
    (hlast : ∀ r ∈ p.lasting keep, r ∈ (d.crash kept).replayRecords) (hfile : OnFile p keep)
    (hd : StampsDistinct p keep) (wall : UInt64) :
    p.Reopens keep (d.crash kept) wall := by
  obtain ⟨s, hs, hscan⟩ := h.opens hp hm hpersist kept wall
  refine ⟨s, hs, ?_⟩
  intro key hkeep
  rw [hscan key]
  refine eq_scanned_of_between hfile hkeep hd ?_ ?_
  · intro v hv
    obtain ⟨r, hr, hver⟩ | ht := exists_of_replayed hv
    · exact .inl ⟨r, h.replay_sub kept r hr, hver⟩
    · exact .inr ht
  · intro v hv
    rw [← (hfile key hkeep).2] at hv
    obtain ⟨r, hr, rfl, rfl⟩ | ⟨t, ht, hget⟩ := exists_of_replayed hv
    · exact le_replayed_of_record (hlast r hr)
    · exact le_replayed_of_table ht hget

theorem Late.atomic (h : Late p keep d) (hpersist : p.engine.opts.ephemeral = false)
    (hfile : OnFile p keep) (hd : StampsDistinct p keep) (kept : Nat) (wall : UInt64) :
    p.Reopens keep (d.crash kept) wall := by
  obtain ⟨s, hs, hscan⟩ := open_scanned (d := d.crash kept) hpersist []
    (p.engine.survivorTable keep).toList (.inl h.manifest) h.tables wall
  refine ⟨s, hs, ?_⟩
  intro key hkeep
  rw [hscan key]
  refine eq_scanned_of_between hfile hkeep hd ?_ ?_
  · intro v hv
    obtain ⟨r, hr, hver⟩ | ⟨t, ht, hget⟩ := exists_of_replayed hv
    · exact .inl ⟨r, h.log kept r hr, hver⟩
    · rw [get_survivorTable ht hkeep] at hget
      exact Filed.of_lasting hfile hkeep hget
  · intro v hv
    obtain ⟨t, ht, hget⟩ := exists_survivorTable hkeep hv
    exact le_replayed_of_table ht hget

private theorem sound_nextSeq (hp : p.Sound) : p.engine.nextSeq ∉ p.engine.paths := by
  intro hmem
  have hlt := hp.below p.engine.nextSeq (by simp [reserved, hmem])
  omega

private theorem replayRecords_crash_all {d : Disk} :
    (d.crash d.activeRecords.length).replayRecords = d.replayRecords := by
  have hactive : (d.crash d.activeRecords.length).activeRecords = d.activeRecords := by
    rw [activeRecords_crash, take_of_length_le (le_max_right _ _)]
  exact congrArg (d.sealedRecords ++ ·) hactive

private theorem replayRecords_crash_none {d : Disk} :
    (d.crash 0).replayRecords = d.sealedRecords ++ d.activeRecords.take d.syncedCount := by
  have hactive : (d.crash 0).activeRecords = d.activeRecords.take d.syncedCount := by
    rw [activeRecords_crash, Nat.max_zero]
  exact congrArg (d.sealedRecords ++ ·) hactive

private theorem entries_removeSegments (d : Disk) (ns : List Nat) :
    (d.applyAll (ns.map Effect.removeSegment)).segments.entries =
      d.segments.entries.filter (fun e => !ns.contains e.1) ∧
    (d.applyAll (ns.map Effect.removeSegment)).wal = d.wal := by
  induction ns generalizing d with
  | nil => simp
  | cons n ns ih =>
    obtain ⟨hentries, hwal⟩ := ih (d.apply (.removeSegment n))
    refine ⟨?_, hwal⟩
    rw [map_cons, show d.applyAll (Effect.removeSegment n :: ns.map Effect.removeSegment) =
      (d.apply (.removeSegment n)).applyAll (ns.map Effect.removeSegment) from rfl, hentries]
    simp only [Disk.apply, OrdMap.erase, OrdMap.filter, List.filter_filter]
    refine List.filter_congr ?_
    intro e _
    by_cases he : e.1 = n <;> simp [he]

theorem replayRecords_before_manifest (hpersist : p.engine.opts.ephemeral = false)
    (hdrop : (p.engine.rejected keep).isEmpty = false) :
    ((p.disk.applyAll (p.engine.earlyEffects keep p.disk)).crash kept).replayRecords = p.lasting keep := by
  rw [lasting, if_neg (by simp [hdrop])]
  unfold earlyEffects
  rw [hpersist, applyAll_append, applyAll_append]
  obtain ⟨hentries, hwal⟩ := entries_removeSegments ((p.disk.applyAll
    ((p.engine.survivorTable keep).toList.map Effect.writeTable)).applyAll [.createWal])
    (p.engine.droppedSegments p.disk)
  have hsegments : (p.disk.applyAll ((p.engine.survivorTable keep).toList.map Effect.writeTable)).segments =
      p.disk.segments := by
    cases p.engine.survivorTable keep <;> rfl
  simp only [replayRecords, crash, Bool.false_eq_true, if_false, hentries, hwal]
  simp only [applyAll, foldl_cons, foldl_nil, apply, map_some, take_nil,
    getD_some, append_nil] at hsegments ⊢
  rw [hsegments]
  congr 2
  refine filter_congr ?_
  intro e he
  have hlisted : e.1 ∈ p.disk.listSegments := mem_map_of_mem he
  by_cases hle : e.1 ≤ p.engine.nextWalSeq
  · simp [droppedSegments, hlisted, hle, not_lt.mpr hle]
  · simp [droppedSegments, hlisted, hle, not_le.mp hle]

-- A retain loses no accepted key to a crash exactly when the files it leaves
-- until the manifest is written hold the key's current version.
theorem retain_crash_atomic_iff (hp : p.Sound) (hm : Persisted p.engine p.disk)
    (hpersist : p.engine.opts.ephemeral = false) (hd : StampsDistinct p keep) :
    CrashAtomic p keep ↔ OnFile p keep := by
  have hnew := sound_nextSeq hp
  have heffects := p.effects_retain keep
  unfold CrashAtomic crashInRetain
  rw [heffects]
  constructor
  · intro h key hkeep
    have hview : ∀ d kept, Early p d → p.Reopens keep (d.crash kept) 0 →
        replayed (d.crash kept).replayRecords p.engine.sstablesNewestFirst key = p.engine.scanned key := by
      rintro d kept hearly ⟨s, hs, hagree⟩
      obtain ⟨s', hs', hscan⟩ := hearly.opens hp hm hpersist kept 0
      obtain rfl := Option.some.inj (hs.symm.trans hs')
      rw [← hscan key]
      exact hagree key hkeep
    constructor
    · have hfull := hview p.disk p.disk.activeRecords.length (Early.refl p) (by
        simpa [Reopens] using h 0 p.disk.activeRecords.length 0)
      rwa [replayRecords_crash_all] at hfull
    · cases hdrop : (p.engine.rejected keep).isEmpty with
      | true =>
        have hsynced := hview p.disk 0 (Early.refl p) (by simpa [Reopens] using h 0 0 0)
        rw [lasting, if_pos hdrop]
        rwa [replayRecords_crash_none] at hsynced
      | false =>
        have hcut := h (p.engine.earlyEffects keep p.disk).length 0 0
        rw [hdrop, if_neg (by simp), retainEffects_eq, take_left] at hcut
        have hlast := hview _ 0 ((Early.refl p).applyAll hnew (fun _ he => he)) hcut
        rwa [replayRecords_before_manifest hpersist hdrop] at hlast
  · intro hfile cut kept wall
    split_ifs with hdrop
    · rw [take_nil]
      refine (Early.refl p).atomic hp hm hpersist ?_ hfile hd wall
      intro r hr
      rw [lasting, if_pos hdrop] at hr
      obtain hr | hr := mem_append.mp hr
      · exact mem_append_left _ hr
      · rw [mem_replayRecords, activeRecords_crash]
        exact .inr (take_subset_take_left _ (le_max_left _ _) hr)
    · have hdrop' : (p.engine.rejected keep).isEmpty = false := by simpa using hdrop
      obtain hearly | hlate := early_or_late hnew
      · exact hearly.atomic hp hm hpersist (hearly.lasting_sub hdrop' kept) hfile hd wall
      · exact hlate.atomic hpersist hfile hd kept wall

end Atomic

def retainOptions : EngineOptions := ⟨1000, 4, 8, 0, 0, false⟩

def twoRows : List Call :=
  [.op (.write (.given ⟨1, 0⟩) true 0 0 [1] (.put [7])), .op (.write (.given ⟨2, 0⟩) true 0 0 [2] (.put [8]))]

theorem retain_crash_atomic_flushed : let p := (fresh retainOptions 0).runCalls (twoRows ++ [.op (.flush 0)])
    p.engine.scanned [2] = some (⟨2, 0⟩, .put [8]) ∧
    (p.engine.rejected (fun key => key ≠ [1])).length = 1 ∧ CrashAtomic p (fun key => key ≠ [1]) := by
  refine ⟨by decide, by decide, ?_⟩
  have hsound : ((fresh retainOptions 0).runCalls (twoRows ++ [.op (.flush 0)])).Sound :=
    runCalls_sound (fresh_sound retainOptions 0) ⟨trivial, trivial, trivial, trivial⟩
  have hmanifest : Persisted ((fresh retainOptions 0).runCalls (twoRows ++ [.op (.flush 0)])).engine
      ((fresh retainOptions 0).runCalls (twoRows ++ [.op (.flush 0)])).disk := .inl (by decide)
  have hlog : ((fresh retainOptions 0).runCalls (twoRows ++ [.op (.flush 0)])).disk.replayRecords = [] := by
    decide
  have hlasting : ((fresh retainOptions 0).runCalls (twoRows ++ [.op (.flush 0)])).lasting
      (fun key => key ≠ [1]) = [] := by decide
  have hmem : ((fresh retainOptions 0).runCalls (twoRows ++ [.op (.flush 0)])).engine.mem = Memtable.new ∧
      ((fresh retainOptions 0).runCalls (twoRows ++ [.op (.flush 0)])).engine.frozen = [] := by decide
  have hone : ((fresh retainOptions 0).runCalls
      (twoRows ++ [.op (.flush 0)])).engine.sstablesNewestFirst.length = 1 := by decide
  have hpersist : ((fresh retainOptions 0).runCalls
      (twoRows ++ [.op (.flush 0)])).engine.opts.ephemeral = false := by decide
  generalize (fresh retainOptions 0).runCalls (twoRows ++ [.op (.flush 0)]) = p at *
  refine (retain_crash_atomic_iff hsound hmanifest hpersist ?_).mpr ?_
  · intro key _ v w hv hw _
    obtain ⟨t, ht⟩ := length_eq_one_iff.mp hone
    obtain ⟨r, hr, -⟩ | ⟨t₁, ht₁, hv⟩ := hv
    · simp [hlog] at hr
    obtain ⟨r, hr, -⟩ | ⟨t₂, ht₂, hw⟩ := hw
    · simp [hlog] at hr
    rw [ht, mem_singleton] at ht₁ ht₂
    rw [ht₁] at hv
    rw [ht₂, hv] at hw
    exact Option.some.inj hw
  · intro key _
    have hscanned : p.engine.scanned key = replayed [] p.engine.sstablesNewestFirst key := by
      rw [scanned_eq, layers_eq, frozenMems, hmem.1, hmem.2]
      rfl
    rw [hlog, hlasting, hscanned]
    exact ⟨rfl, rfl⟩

-- With the rows still in the log, a crash right after the log is emptied loses the
-- accepted one.
theorem retain_loses_accepted_row : let p := (fresh retainOptions 0).runCalls twoRows
    p.engine.scanned [2] = some (⟨2, 0⟩, .put [8]) ∧
    (p.crashInRetain (fun key => key ≠ [1]) 2 0 0).map (fun s => s.engine.scanned [2]) = some none := by
  decide

end Skaidb.Storage
