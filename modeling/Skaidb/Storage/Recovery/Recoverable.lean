import Mathlib.Data.List.Induction
import Skaidb.Storage.Recovery.Moves

namespace Skaidb.Storage

open Skaidb.Base List Option Disk History Memtable

theorem layerOf_replay {records : List WalRecord} :
    LayerOf (records.map WalRecord.write) (replay records).layer := by
  induction records using reverseRecOn with
  | nil =>
    constructor
    · intro key v hv
      cases hv
    · simp
  | append_singleton records r ih =>
    have hreplay : replay (records ++ [r]) = (replay records).insert r.key r.hlc r.op := by
      simp [replay]
    rw [hreplay, map_append]
    constructor
    · intro key v hv
      rw [layer_insert] at hv
      split_ifs at hv with hk
      · subst hk
        obtain hp | hp := pick_eq_or (some (r.hlc, r.op)) ((replay records).layer r.key)
        · rw [hp] at hv
          cases hv
          simp [WalRecord.write]
        · rw [hp] at hv
          exact mem_append_left _ (ih.known _ v hv)
      · exact mem_append_left _ (ih.known key v hv)
    · intro w hw
      rw [layer_insert]
      obtain hw | hw := mem_append.mp hw
      · obtain ⟨v, hv, hle⟩ := ih.reaches w hw
        split_ifs with hk
        · rw [hk] at hv
          have hreach : ∃ u, pick (some (r.hlc, r.op)) ((replay records).layer r.key) = some u ∧
              v.1 ≤ u.1 := le_pick (.inr hv)
          obtain ⟨u, hu, hvu⟩ := hreach
          exact ⟨u, hu, hle.trans hvu⟩
        · exact ⟨v, hv, hle⟩
      · obtain rfl : w = r.write := by simpa using hw
        rw [if_pos (show r.write.1 = r.key from rfl)]
        exact le_pick (.inl rfl)

namespace Disk

def sealedRecords (d : Disk) : List WalRecord := (d.segments.entries.map Prod.snd).flatten

def activeRecords (d : Disk) : List WalRecord := (d.wal.map WalFile.records).getD []

def syncedCount (d : Disk) : Nat := (d.wal.map WalFile.durable).getD 0

end Disk

-- What a reopen relies on. The first `gone` records of the history have left the
-- log, the rest is there in order. The tables of the manifest are all on disk,
-- and represent the first `flushed` records, which no crash can lose.
structure Recoverable (h : History) (d : Disk) (l0 levels : List SsTable) (gone flushed : Nat) :
    Prop where
  log : h.records.drop gone = d.sealedRecords ++ d.activeRecords
  gone_le : gone ≤ h.records.length
  gone_flushed : gone ≤ flushed
  flushed_le : flushed ≤ gone + d.sealedRecords.length
  durable_le : h.durable ≤ gone + d.sealedRecords.length + d.syncedCount
  synced_le : d.syncedCount ≤ d.activeRecords.length
  positive : ∀ n ∈ d.listSegments, 1 ≤ n
  manifest : d.manifest = some (manifestOf l0 levels) ∨ (d.manifest = none ∧ l0 = [] ∧ levels = [])
  files : ∀ t ∈ l0 ++ levels, d.tables.get? t.path = some t.entries
  nodup : ((l0 ++ levels).map SsTable.path).Nodup
  tables : Represents Tombstone (h.writes.take flushed) (tableLayers (l0 ++ levels))

namespace Recoverable

variable {h : History} {d : Disk}

section

variable (hr : Recoverable h d l0 levels gone flushed)

include hr

theorem length_eq : h.records.length = gone + d.sealedRecords.length + d.activeRecords.length := by
  have hlen := congrArg List.length hr.log
  have hle := hr.gone_le
  rw [length_drop, length_append] at hlen
  omega

theorem mem_listed {t : SsTable} (ht : t ∈ l0 ++ levels) : t.path ∈ d.listed := by
  obtain hm | ⟨-, rfl, rfl⟩ := hr.manifest
  · rw [listed, hm, getD_some, paths_manifestOf]
    exact mem_map_of_mem ht
  · simp at ht

theorem represents : Represents Tombstone h.writes
      ((replay (h.records.drop gone)).layer :: tableLayers (l0 ++ levels)) := by
  refine hr.tables.push hr.gone_flushed ?_
  rw [writes, ← map_drop]
  exact layerOf_replay

private theorem frame_log {d' : Disk}
    (hwal : d'.wal = d.wal) (hseg : d'.segments = d.segments) (hman : d'.manifest = d.manifest)
    (hfiles : ∀ t ∈ l0 ++ levels, d'.tables.get? t.path = some t.entries) :
    Recoverable h d' l0 levels gone flushed := by
  have hsealed : d'.sealedRecords = d.sealedRecords := by rw [sealedRecords, hseg]; rfl
  have hactive : d'.activeRecords = d.activeRecords := by rw [activeRecords, hwal]; rfl
  have hsynced : d'.syncedCount = d.syncedCount := by rw [syncedCount, hwal]; rfl
  have hlist : d'.listSegments = d.listSegments := by rw [listSegments, hseg]; rfl
  exact ⟨by rw [hsealed, hactive]; exact hr.log, hr.gone_le, hr.gone_flushed,
    by rw [hsealed]; exact hr.flushed_le, by rw [hsealed, hsynced]; exact hr.durable_le,
    by rw [hsynced, hactive]; exact hr.synced_le, by rw [hlist]; exact hr.positive,
    by rw [hman]; exact hr.manifest, hfiles, hr.nodup, hr.tables⟩

theorem writeTable {t : SsTable}
    (hnew : t.path ∉ d.listed) : Recoverable h (d.apply (.writeTable t)) l0 levels gone flushed := by
  refine hr.frame_log rfl rfl rfl ?_
  intro u hu
  have hne : u.path ≠ t.path := fun heq => hnew (heq ▸ hr.mem_listed hu)
  simp only [Disk.apply, OrdMap.get?_insert, if_neg hne]
  exact hr.files u hu

theorem removeTable (hp : p ∉ d.listed) : Recoverable h (d.apply (.removeTable p)) l0 levels gone flushed := by
  refine hr.frame_log rfl rfl rfl ?_
  intro u hu
  have hne : u.path ≠ p := fun heq => hp (heq ▸ hr.mem_listed hu)
  simp only [Disk.apply, OrdMap.get?_erase, if_neg hne]
  exact hr.files u hu

theorem writeManifest (l0' levels' : List SsTable) (hgone : gone ≤ flushed')
    (hle : flushed' ≤ gone + d.sealedRecords.length)
    (hfiles : ∀ t ∈ l0' ++ levels', d.tables.get? t.path = some t.entries)
    (hnodup : ((l0' ++ levels').map SsTable.path).Nodup)
    (htables : Represents Tombstone (h.writes.take flushed') (tableLayers (l0' ++ levels'))) :
    Recoverable h (d.apply (.writeManifest (manifestOf l0' levels'))) l0' levels' gone flushed' :=
  ⟨hr.log, hr.gone_le, hgone, hle, hr.durable_le, hr.synced_le, hr.positive, .inl rfl, hfiles, hnodup,
    htables⟩

theorem append (hwal : d.wal = some f) (r : WalRecord) :
    Recoverable (h.apply (.appendWal r)) (d.apply (.appendWal r)) l0 levels gone flushed := by
  have hactive : (d.apply (.appendWal r)).activeRecords = d.activeRecords ++ [r] := by
    simp [Disk.apply, Disk.activeRecords, hwal]
  have hsynced : (d.apply (.appendWal r)).syncedCount = d.syncedCount := by
    simp [Disk.apply, Disk.syncedCount, hwal]
  have hlen := hr.length_eq
  have hfl := hr.flushed_le
  refine ⟨?_, ?_, hr.gone_flushed, hr.flushed_le, ?_, ?_, hr.positive, hr.manifest, hr.files,
    hr.nodup, ?_⟩
  · rw [hactive, ← append_assoc]
    exact (drop_append_of_le_length hr.gone_le).trans (by rw [hr.log]; rfl)
  · simp only [History.apply, length_append]
    omega
  · rw [hsynced]
    exact hr.durable_le
  · rw [hsynced, hactive, length_append]
    have := hr.synced_le
    omega
  · have hwrites : (h.apply (.appendWal r)).writes.take flushed = h.writes.take flushed := by
      simp only [History.writes, History.apply, map_append]
      rw [take_append_of_le_length]
      rw [length_map]
      omega
    rw [hwrites]
    exact hr.tables

theorem sync : Recoverable (h.apply .syncWal) (d.apply .syncWal) l0 levels gone flushed := by
  have hactive : (d.apply .syncWal).activeRecords = d.activeRecords := by
    cases hwal : d.wal <;> simp [Disk.apply, Disk.activeRecords, hwal]
  have hsynced : (d.apply .syncWal).syncedCount = d.activeRecords.length := by
    cases hwal : d.wal <;> simp [Disk.apply, Disk.syncedCount, Disk.activeRecords, hwal]
  refine ⟨by rw [hactive]; exact hr.log, hr.gone_le, hr.gone_flushed, hr.flushed_le, ?_,
    by rw [hsynced, hactive], hr.positive, hr.manifest, hr.files, hr.nodup, hr.tables⟩
  rw [hsynced]
  exact hr.length_eq.le

theorem rename {f : WalFile} (hwal : d.wal = some f) (hpos : 1 ≤ n) (habove : ∀ m ∈ d.listSegments, m < n) :
    (d.apply (.renameWal n)).segments.entries = d.segments.entries ++ [(n, f.records)] ∧
    Recoverable h (d.apply (.renameWal n)) l0 levels gone flushed := by
  have hentries : (d.apply (.renameWal n)).segments.entries = d.segments.entries ++ [(n, f.records)] := by
    simp only [Disk.apply, hwal]
    refine OrdMap.insertEntry_of_lt ?_
    intro e he
    exact habove e.1 (mem_map_of_mem he)
  have hnone : (d.apply (.renameWal n)).wal = none := by simp [Disk.apply, hwal]
  have hmanifest : (d.apply (.renameWal n)).manifest = d.manifest := by simp [Disk.apply, hwal]
  have htables : (d.apply (.renameWal n)).tables = d.tables := d.tables_renameWal n
  have hactive : d.activeRecords = f.records := by simp [activeRecords, hwal]
  have hsealed : (d.apply (.renameWal n)).sealedRecords = d.sealedRecords ++ d.activeRecords := by
    simp [sealedRecords, hentries, hactive]
  have hactive' : (d.apply (.renameWal n)).activeRecords = [] := by simp [activeRecords, hnone]
  have hsynced' : (d.apply (.renameWal n)).syncedCount = 0 := by simp [syncedCount, hnone]
  have hfl := hr.flushed_le
  have hdu := hr.durable_le
  have hsy := hr.synced_le
  refine ⟨hentries, ?_, hr.gone_le, hr.gone_flushed, ?_, ?_, ?_, ?_, by rw [hmanifest]; exact hr.manifest,
    by rw [htables]; exact hr.files, hr.nodup, hr.tables⟩
  · rw [hsealed, hactive', append_nil]
    exact hr.log
  · rw [hsealed, length_append]
    omega
  · rw [hsealed, hsynced', length_append]
    omega
  · rw [hsynced']
    exact Nat.zero_le _
  · intro m hm
    rw [listSegments, hentries, map_append] at hm
    obtain hm | hm := mem_append.mp hm
    · exact hr.positive m hm
    · obtain rfl : m = n := by simpa using hm
      exact hpos

theorem create (hwal : d.wal = none) : Recoverable h (d.apply .createWal) l0 levels gone flushed := by
  have hactive : d.activeRecords = [] := by simp [activeRecords, hwal]
  have hsynced : d.syncedCount = 0 := by simp [syncedCount, hwal]
  have hlog := hr.log
  have hdurable := hr.durable_le
  rw [hactive] at hlog
  rw [hsynced] at hdurable
  exact ⟨hlog, hr.gone_le, hr.gone_flushed, hr.flushed_le, hdurable, le_rfl, hr.positive, hr.manifest,
    hr.files, hr.nodup, hr.tables⟩

theorem openWal : Recoverable h (d.apply .openWal) l0 levels gone flushed := by
  cases hwal : d.wal with
  | none =>
    have heq : d.apply .openWal = d.apply .createWal := by simp [Disk.apply, hwal]
    rw [heq]
    exact hr.create hwal
  | some f =>
    have heq : d.apply .openWal = d := by
      cases d
      simp_all [Disk.apply]
    rw [heq]
    exact hr

-- The oldest segment may go once the tables represent all of it.
theorem removeSegment {records : List WalRecord} (hseg : d.segments.entries = (n, records) :: rest)
    (hle : gone + records.length ≤ flushed) : (d.apply (.removeSegment n)).segments.entries = rest ∧
    Recoverable h (d.apply (.removeSegment n)) l0 levels (gone + records.length) flushed := by
  have hentries : (d.apply (.removeSegment n)).segments.entries = rest :=
    d.segments.entries_erase_head hseg
  have hsealed : d.sealedRecords = records ++ (d.apply (.removeSegment n)).sealedRecords := by
    simp [sealedRecords, hseg, hentries]
  have hlen := hr.length_eq
  have hfl := hr.flushed_le
  have hdu := hr.durable_le
  rw [hsealed, length_append] at hlen hfl hdu
  refine ⟨hentries, ?_, ?_, hle, ?_, ?_, hr.synced_le, ?_, hr.manifest, hr.files, hr.nodup, hr.tables⟩
  · rw [← drop_drop, hr.log, hsealed, append_assoc, drop_left]
    rfl
  · omega
  · omega
  · have hsynced : (d.apply (.removeSegment n)).syncedCount = d.syncedCount := rfl
    omega
  · intro m hm
    refine hr.positive m ?_
    rw [listSegments, hentries] at hm
    rw [listSegments, hseg]
    exact mem_cons_of_mem _ hm

theorem crash (kept : Nat) : Recoverable (h.crash (d.lost kept)) (d.crash kept) l0 levels gone flushed := by
  have hactive : (d.crash kept).activeRecords =
      d.activeRecords.take (d.activeRecords.length - d.lost kept) := by
    cases hwal : d.wal with
    | none => simp [Disk.crash, Disk.activeRecords, Disk.lost, hwal]
    | some f =>
      simp only [Disk.crash, Disk.activeRecords, Disk.lost, hwal, map_some, getD_some]
      by_cases hle : max f.durable kept ≤ f.records.length
      · congr 1
        omega
      · rw [take_of_length_le (by omega), take_of_length_le (by omega)]
  have hlost : d.lost kept ≤ d.activeRecords.length - d.syncedCount := by
    cases hwal : d.wal with
    | none => simp [Disk.lost, hwal]
    | some f =>
      simp only [Disk.activeRecords, Disk.lost, Disk.syncedCount, hwal, map_some,
        getD_some]
      omega
  have hsynced : (d.crash kept).syncedCount = d.syncedCount := by
    cases hwal : d.wal <;> simp [Disk.crash, Disk.syncedCount, hwal]
  have hlen := hr.length_eq
  have hsy := hr.synced_le
  have hfl := hr.flushed_le
  refine ⟨?_, ?_, hr.gone_flushed, hr.flushed_le, ?_, ?_, hr.positive, hr.manifest, hr.files, hr.nodup, ?_⟩
  · rw [hactive]
    simp only [History.crash]
    rw [drop_take, hr.log, take_append]
    congr 1
    · exact take_of_length_le (by omega)
    · congr 1
      omega
  · simp only [History.crash, length_take]
    omega
  · rw [hsynced]
    exact hr.durable_le
  · rw [hsynced, hactive, length_take]
    omega
  · have hwrites : (h.crash (d.lost kept)).writes.take flushed = h.writes.take flushed := by
      simp only [History.writes, History.crash, map_take, take_take]
      congr 1
      omega
    rw [hwrites]
    exact hr.tables

end

end Recoverable

end Skaidb.Storage
