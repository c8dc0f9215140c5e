import Skaidb.Storage.KWayMerge.Theorems
import Skaidb.Storage.Memtable.Theorems
import Skaidb.Storage.ReadCache
import Skaidb.Storage.Disk

namespace Skaidb.Storage

open Skaidb.Base

structure EngineOptions where
  flushThresholdBytes : Nat
  l0CompactionTrigger : Nat
  level1Capacity : Nat
  readCacheCapacity : Nat
  readCacheBytes : Nat
  ephemeral : Bool

-- The append side of the active log. Offsets count records.
structure Wal where
  generation : Nat
  writeOffset : Nat
  synced : Nat

structure WalCommit where
  generation : Nat
  offset : Nat

-- A memtable sealed for background flush, backed by its own log segment.
structure FrozenMem where
  mem : Memtable
  walSeq : Nat
  maxHlc : Option Hlc
  building : Bool

structure FlushJob where
  mem : Memtable
  path : Nat
  walSeq : Nat

-- Inputs are pinned by path; the builder reopens them from disk.
structure CompactJob where
  inputs : List Nat
  output : Nat
  deepest : Bool
  expireBefore : Option Nat
  tombstoneKeepAfter : Nat

structure Engine where
  wal : Wal
  mem : Memtable
  frozen : List FrozenMem
  nextWalSeq : Nat
  writeSeq : Nat
  clock : HlcClock
  ttlMs : Option Nat
  tombstoneRetentionMs : Nat
  opts : EngineOptions
  l0 : List SsTable
  levels : List SsTable
  nextSeq : Nat
  readCache : ReadCache
  maintWatermark : Hlc

def rowExpired (ttlMs : Option Nat) (now : UInt64) (hlc : Hlc) : Bool :=
  ttlMs.any (fun ttl => ttl < now.toNat - hlc.physical.toNat)

def versionToValue : VersionValue → Option Bytes
  | .put bytes => some bytes
  | .delete => none

-- The entries a merge writes out: tombstones go at the deepest level once past
-- the retention cutoff, anything goes once past the expiry cutoff.
def retained (dropTombstones : Bool) (expireBefore : Option Nat) (tombstoneKeepAfter : Nat)
    (e : Bytes × Version) : Bool :=
  if e.2.2 = .delete ∧ dropTombstones = true ∧ e.2.1.physical.toNat < tombstoneKeepAfter then false
  else !expireBefore.any (fun cutoff => e.2.1.physical.toNat < cutoff)

def mergeSources (sources : List (List (Bytes × Version))) : List (Bytes × Version) :=
  KWayMerge.run sources

theorem mergeSources_sorted {tables : List SsTable} :
    (mergeSources (tables.map (fun t => t.entries.entries))).Pairwise (fun a b => a.1 < b.1) := by
  refine (KWayMerge.run_spec _ ?_).1
  intro items hi
  obtain ⟨t, -, rfl⟩ := List.mem_map.mp hi
  exact t.entries.sorted

def mergeWrite (path : Nat) (sources : List SsTable) (dropTombstones : Bool)
    (expireBefore : Option Nat) (tombstoneKeepAfter : Nat) : SsTable :=
  { path
    entries :=
      ⟨(mergeSources (sources.map (fun t => t.entries.entries))).filter
          (retained dropTombstones expireBefore tombstoneKeepAfter),
        mergeSources_sorted.filter _⟩ }

namespace Engine

variable (e : Engine)

def sstablesNewestFirst : List SsTable := e.l0 ++ e.levels

def memtables : List Memtable := e.mem :: e.frozen.reverse.map FrozenMem.mem

-- Stop at the first source that holds the key. A miss in all memtables goes
-- through the read cache.
def getVersioned (key : Bytes) : Option Version × Engine :=
  match e.memtables.findSome? (fun m => m.getEntryVersioned key) with
  | some v => (some v, e)
  | none =>
    match e.readCache.get key with
    | some cached => (cached, e)
    | none =>
      let found := e.sstablesNewestFirst.findSome? (fun t => t.get key)
      (found, { e with readCache := e.readCache.insert key found })

def get (now : UInt64) (key : Bytes) : Option Bytes × Engine :=
  let (found, e') := e.getVersioned key
  match found with
  | some (hlc, value) => (if rowExpired e.ttlMs now hlc then none else versionToValue value, e')
  | none => (none, e')

def mergedIter : List (Bytes × Version) :=
  mergeSources (e.memtables.map Memtable.iterLatest ++
    e.sstablesNewestFirst.map (fun t => t.entries.entries))

def scanVersionedWithTombstones : List (Bytes × Version) := e.mergedIter

-- Live rows only: a tombstone or an expired row is not served.
def liveRow (now : UInt64) : Bytes × Version → Option (Bytes × Hlc × Bytes)
  | (key, hlc, .put bytes) => if rowExpired e.ttlMs now hlc then none else some (key, hlc, bytes)
  | (_, _, .delete) => none

def scanVersioned (now : UInt64) : List (Bytes × Hlc × Bytes) :=
  e.mergedIter.filterMap (e.liveRow now)

def scan (now : UInt64) : List (Bytes × Bytes) :=
  (e.scanVersioned now).map (fun row => (row.1, row.2.2))

-- A panic of a memtable range is `none`.
def mergedRange (start finish : Option Bytes) : Option (List (Bytes × Version)) :=
  if inverted start finish then none
  else some (mergeSources
    (e.memtables.map (fun m => (m.rangeLatest start finish).getD []) ++
      e.sstablesNewestFirst.map
        (fun t => t.entries.entries.filter (fun e => inRange start finish e.1))))

def scanRange (now : UInt64) (start finish : Option Bytes) :
    Option (List (Bytes × Bytes)) :=
  (e.mergedRange start finish).map (fun items =>
    (items.filterMap (e.liveRow now)).map (fun row => (row.1, row.2.2)))

def nextTablePath : Nat × Engine := (e.nextSeq, { e with nextSeq := e.nextSeq + 1 })

-- `10u64.pow` and the product wrap.
def levelCapacity (level : Nat) : Nat :=
  e.opts.level1Capacity * 10 ^ level % 2 ^ 64

def setMaintenanceWatermark (hlc : Hlc) : Engine :=
  if e.maintWatermark = Hlc.MAX ∨ e.maintWatermark < hlc then { e with maintWatermark := hlc } else e

def setTombstoneRetentionMs (ms : Nat) : Engine := { e with tombstoneRetentionMs := ms }

def clearReadCache : Engine :=
  { e with readCache := ReadCache.new e.opts.readCacheCapacity e.opts.readCacheBytes }

def takeFlushJob : Option (FlushJob × Engine) :=
  if e.opts.ephemeral then none
  else match e.frozen with
  | [] => none
  | f :: rest =>
    if f.building then none
    else
      let (path, e') := e.nextTablePath
      some ({ mem := f.mem, path, walSeq := f.walSeq },
        { e' with frozen := { f with building := true } :: rest })

def buildFlush (job : FlushJob) : SsTable := ⟨job.path, ⟨job.mem.iterLatest, job.mem.iterLatest_sorted⟩⟩

def cascadeLevel : Option Nat :=
  (List.range e.levels.length).find? (fun level =>
    level + 1 < e.levels.length &&
      (e.levels[level]?).any (fun t => e.levelCapacity level < t.len))

def takeCompactJob (now : UInt64) : Option (CompactJob × Engine) :=
  if e.opts.ephemeral then none
  else
    let expireBefore := e.ttlMs.map (fun ttl => now.toNat - ttl)
    let tombstoneKeepAfter := now.toNat - e.tombstoneRetentionMs
    let (output, e') := e.nextTablePath
    if e.opts.l0CompactionTrigger ≤ e.l0.length then
      some ({ inputs := (e.l0 ++ e.levels.take 1).map SsTable.path, output,
              deepest := e.levels.length ≤ 1, expireBefore, tombstoneKeepAfter }, e')
    else
      match e.cascadeLevel with
      | none => none
      | some level =>
        some ({ inputs := ((e.levels.drop level).take 2).map SsTable.path, output,
                deepest := level + 1 = e.levels.length - 1, expireBefore, tombstoneKeepAfter }, e')

def manifestLines : List (Nat × Nat) :=
  e.l0.map (fun t => (0, t.path)) ++ e.levels.zipIdx.map (fun (t, i) => (i + 1, t.path))

-- Replace the input tables by the output, one level below the shallowest input.
def placeRun (inputs : List Nat) (newRun : SsTable) : Engine :=
  let isInput : SsTable → Bool := fun t => inputs.contains t.path
  let firstRemoved := e.levels.findIdx isInput
  let idx :=
    if e.l0.any isInput then 0 else if e.levels.any isInput then firstRemoved else 0
  let levels := e.levels.filter (fun t => !isInput t)
  { e with
    l0 := e.l0.filter (fun t => !isInput t)
    levels := levels.take idx ++ newRun :: levels.drop idx }

def inputsPresent (inputs : List Nat) : Bool :=
  inputs.all (fun p => e.sstablesNewestFirst.any (fun t => t.path = p))

end Engine

end Skaidb.Storage
