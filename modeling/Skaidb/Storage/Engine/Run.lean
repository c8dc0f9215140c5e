import Mathlib.Data.List.Sort
import Skaidb.Storage.Engine.Session

namespace Skaidb.Storage

open Skaidb.Base

-- A running engine with its directory, the background jobs in flight (with the
-- table once it is built) and the commit points it has handed out.
structure Process where
  engine : Engine
  disk : Disk
  flushJobs : List (FlushJob × Option SsTable)
  compactJobs : List (CompactJob × Option SsTable)
  commits : List WalCommit

inductive Op where
  | write (stamping : Session.Stamping) (sync : Bool) (wall now : UInt64) (key : Bytes)
      (value : VersionValue)
  | sync (i : Nat)
  | read (key : Bytes)
  | freeze
  | flush (now : UInt64)
  | takeFlush
  | buildFlush (i : Nat)
  | installFlush (i : Nat)
  | abortFlush (i : Nat)
  | takeCompact (now : UInt64)
  | buildCompact (i : Nat)
  | installCompact (i : Nat)
  | setMaintenanceWatermark (hlc : Hlc)
  | setTombstoneRetentionMs (ms : Nat)
  | clearReadCache
  deriving DecidableEq

def Op.isWrite : Op → Bool
  | .write .. => true
  | _ => false

def Op.lands : Op → Bool
  | .flush _ | .installCompact _ => true
  | _ => false

namespace Process

variable (p : Process)

def session : Session := ⟨p.engine, p.disk, []⟩

def commit (s : Session) : Process × List Effect :=
  ({ p with engine := s.engine, disk := s.disk }, s.effects)

-- One call on the engine, or one step of the background worker on job `i`. A
-- step that names no such job does nothing.
def exec : Op → Process × List Effect
  | .write stamping sync wall now key value =>
    let (s, _, commit) := p.session.write stamping sync wall now key value
    ({ p with commits := p.commits ++ [commit] } : Process).commit s
  | .sync i =>
    match p.commits[i]? with
    | none => (p, [])
    | some commit => p.commit (p.session.syncThrough commit)
  | .read key => p.commit (p.session.modify (fun e => (e.getVersioned key).2))
  | .freeze => if p.engine.opts.ephemeral then (p, []) else p.commit p.session.freeze
  | .flush now => p.commit (p.session.flush now)
  | .takeFlush =>
    match p.engine.takeFlushJob with
    | none => (p, [])
    | some (job, e) => ({ p with engine := e, flushJobs := p.flushJobs ++ [(job, none)] }, [])
  | .buildFlush i =>
    match p.flushJobs[i]? with
    | some (job, none) =>
      let sst := Engine.buildFlush job
      ({ p with flushJobs := p.flushJobs.set i (job, some sst) } : Process).commit
        (p.session.writeTable sst)
    | _ => (p, [])
  | .installFlush i =>
    match p.flushJobs[i]? with
    | some (job, some sst) =>
      ({ p with flushJobs := p.flushJobs.eraseIdx i } : Process).commit
        (p.session.installFlush job sst)
    | _ => (p, [])
  | .abortFlush i =>
    match p.flushJobs[i]? with
    | some (job, _) =>
      ({ p with flushJobs := p.flushJobs.eraseIdx i } : Process).commit
        (p.session.abortFlush job)
    | none => (p, [])
  | .takeCompact now =>
    match p.engine.takeCompactJob now with
    | none => (p, [])
    | some (job, e) => ({ p with engine := e, compactJobs := p.compactJobs ++ [(job, none)] }, [])
  | .buildCompact i =>
    match p.compactJobs[i]? with
    | some (job, none) =>
      match p.session.buildCompact job with
      | none => ({ p with compactJobs := p.compactJobs.eraseIdx i }, [])
      | some run =>
        ({ p with compactJobs := p.compactJobs.set i (job, some run) } : Process).commit
          (p.session.writeTable run)
    | _ => (p, [])
  | .installCompact i =>
    match p.compactJobs[i]? with
    | some (job, some run) =>
      ({ p with compactJobs := p.compactJobs.eraseIdx i } : Process).commit
        (p.session.installCompact job run)
    | _ => (p, [])
  | .setMaintenanceWatermark hlc => p.commit (p.session.modify (·.setMaintenanceWatermark hlc))
  | .setTombstoneRetentionMs ms => p.commit (p.session.modify (·.setTombstoneRetentionMs ms))
  | .clearReadCache => p.commit (p.session.modify Engine.clearReadCache)

def step (op : Op) : Process := (p.exec op).1

def runOps (ops : List Op) : Process := ops.foldl step p

end Process

-- `load_manifest`: the level-0 tables in listed order, the deeper levels by
-- level, and the next sequence number. A listed file that is missing fails.
def readTables (disk : Disk) : List (Nat × Nat) → Option (List (Nat × SsTable))
  | [] => some []
  | (level, path) :: lines =>
    match disk.readTable path, readTables disk lines with
    | some t, some ts => some ((level, t) :: ts)
    | _, _ => none

def loadManifest (disk : Disk) : Option (List SsTable × List SsTable × Nat) :=
  match disk.manifest with
  | none => some ([], [], 0)
  | some lines =>
    (readTables disk lines).map (fun tables =>
      ((tables.filter (fun t => t.1 = 0)).map Prod.snd,
        ((tables.filter (fun t => t.1 ≠ 0)).insertionSort (fun a b => a.1 ≤ b.1)).map Prod.snd,
        lines.foldl (fun next line => max next (line.2 + 1)) 0))

-- The records `Wal::open` replays: sealed segments ascending, then the active log.
def Disk.replayRecords (disk : Disk) : List WalRecord :=
  (disk.segments.entries.map Prod.snd).flatten ++ (disk.wal.map WalFile.records).getD []

def newestReplayed (records : List WalRecord) : Hlc :=
  records.foldl (fun h r => max h r.hlc) Hlc.MIN

def openWithOptions (opts : EngineOptions) (disk : Disk) (wall : UInt64) : Option Session :=
  let effects : List Effect := if opts.ephemeral then [.removeWal, .removeTables] else [.openWal]
  let records := if opts.ephemeral then [] else disk.replayRecords
  let goodLen := if opts.ephemeral then 0 else ((disk.wal.map WalFile.records).getD []).length
  let manifest := if opts.ephemeral then some ([], [], 0) else loadManifest disk
  manifest.map (fun (l0, levels, nextSeq) =>
    { engine :=
        { wal := { generation := 0, writeOffset := goodLen, synced := goodLen }
          mem := Memtable.replay records
          frozen := []
          nextWalSeq := 1
          writeSeq := 0
          clock :=
            if Hlc.MIN < newestReplayed records then
              HlcClock.new.observe (newestReplayed records) wall
            else HlcClock.new
          ttlMs := none
          tombstoneRetentionMs := 0
          opts
          l0
          levels
          nextSeq
          readCache := ReadCache.new opts.readCacheCapacity opts.readCacheBytes
          maintWatermark := Hlc.MAX }
      start := disk
      effects })

def Process.ofSession (s : Session) : Process :=
  { engine := s.engine, disk := s.disk, flushJobs := [], compactJobs := [], commits := [] }

end Skaidb.Storage
