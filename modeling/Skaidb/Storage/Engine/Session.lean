import Skaidb.Storage.Engine

namespace Skaidb.Storage

open Skaidb.Base

-- An engine at work on its directory: the disk it started from and the file
-- effects so far, in order.
structure Session where
  engine : Engine
  start : Disk
  effects : List Effect

namespace Session

variable (s : Session)

def disk : Disk := s.start.applyAll s.effects

def emit (e : Effect) : Session := { s with effects := s.effects ++ [e] }

def emitAll (es : List Effect) : Session := { s with effects := s.effects ++ es }

def modify (f : Engine → Engine) : Session := { s with engine := f s.engine }

def appendOp (record : WalRecord) : Session × WalCommit :=
  let wal := s.engine.wal
  let s' := if s.engine.opts.ephemeral then s else s.emit (.appendWal record)
  (s'.modify (fun e => { e with wal := { wal with writeOffset := wal.writeOffset + 1 } }),
    { generation := wal.generation, offset := wal.writeOffset + 1 })

def syncThrough (commit : WalCommit) : Session :=
  let wal := s.engine.wal
  if s.engine.opts.ephemeral || wal.generation ≠ commit.generation || commit.offset ≤ wal.synced
  then s
  else (s.emit .syncWal).modify (fun e => { e with wal := { wal with synced := wal.writeOffset } })

def rotate (seq : Nat) : Session :=
  let wal := s.engine.wal
  (((s.emit .syncWal).emit (.renameWal seq)).emit .createWal).modify
    (fun e => { e with wal := { generation := wal.generation + 1, writeOffset := 0, synced := 0 } })

def dropSegmentsThrough (seq : Nat) : Session :=
  s.emitAll ((s.disk.listSegments.filter (fun n => n ≤ seq)).map Effect.removeSegment)

def persistManifest : Session := s.emit (.writeManifest s.engine.manifestLines)

def removeFiles (paths : List Nat) : Session := s.emitAll (paths.map Effect.removeTable)

def freeze : Session :=
  let seq := s.engine.nextWalSeq
  ((s.modify (fun e => { e with nextWalSeq := seq + 1 })).rotate seq).modify (fun e =>
    { e with
      mem := Memtable.new
      frozen := e.frozen ++
        [{ mem := e.mem, walSeq := seq, maxHlc := e.mem.maxHlc, building := false }] })

def writeTable (t : SsTable) : Session := s.emit (.writeTable t)

-- The maintenance watermark gates the drop of a flushed memtable's segment.
def dropFlushed (f : FrozenMem) : Session :=
  if f.maxHlc.all (fun h => h ≤ s.engine.maintWatermark) then s.dropSegmentsThrough f.walSeq else s

-- The manifest persists before the sealed segment drops.
def installFlush (job : FlushJob) (sst : SsTable) : Session :=
  let s₁ := (s.modify (fun e => { e with l0 := sst :: e.l0 })).persistManifest
  match s₁.engine.frozen.find? (fun f => f.walSeq = job.walSeq) with
  | none => s₁
  | some f =>
    (s₁.modify (fun e =>
      { e with frozen := e.frozen.eraseP (fun f => f.walSeq = job.walSeq) })).dropFlushed f

def abortFlush (job : FlushJob) : Session :=
  (s.modify (fun e =>
    { e with
      frozen := e.frozen.modify (e.frozen.findIdx (fun f => f.walSeq = job.walSeq))
        (fun f => { f with building := false }) })).removeFiles [job.path]

-- A build fails when an input file is gone.
def buildCompact (job : CompactJob) : Option SsTable := do
  let inputs ← job.inputs.mapM s.disk.readTable
  some (mergeWrite job.output inputs job.deepest job.expireBefore job.tombstoneKeepAfter)

def installCompact (job : CompactJob) (newRun : SsTable) : Session :=
  if s.engine.inputsPresent job.inputs then
    ((s.modify (fun e => e.placeRun job.inputs newRun)).persistManifest).removeFiles job.inputs
  else s.removeFiles [job.output]

-- One merge of the inline compactor: the `width` levels from `level` on, after
-- all of level 0 when `withL0`, become one run.
def mergeRun (withL0 : Bool) (level width : Nat) (deepest : Bool) (expireBefore : Option Nat)
    (tombstoneKeepAfter : Nat) : Session × List Nat :=
  let (path, e) := s.engine.nextTablePath
  let sources := (if withL0 then e.l0 else []) ++ (e.levels.drop level).take width
  let newRun := mergeWrite path sources deepest expireBefore tombstoneKeepAfter
  ((({ s with engine := e } : Session).writeTable newRun).modify (fun e =>
    { e with
      l0 := if withL0 then [] else e.l0
      levels := e.levels.take level ++ newRun :: e.levels.drop (level + width) }),
    sources.map SsTable.path)

-- Over-capacity levels cascade down; the deepest one is rewritten in place.
def cascade (expireBefore : Option Nat) (tombstoneKeepAfter : Nat) :
    Nat → Nat → Session → Session × List Nat
  | 0, _, s => (s, [])
  | fuel + 1, level, s =>
    match s.engine.levels[level]? with
    | none => (s, [])
    | some t =>
      if t.len ≤ s.engine.levelCapacity level then (s, [])
      else
        let hasNext : Bool := level + 1 < s.engine.levels.length
        let (s₁, old) := s.mergeRun false level (if hasNext then 2 else 1) (!hasNext)
          expireBefore tombstoneKeepAfter
        let (s₂, rest) := cascade expireBefore tombstoneKeepAfter fuel (level + 1) s₁
        (s₂, old ++ rest)

-- Retired inputs are deleted after the manifest points at their replacements.
def maybeCompact (now : UInt64) : Session :=
  if s.engine.l0.length < s.engine.opts.l0CompactionTrigger then s
  else
    let expireBefore := s.engine.ttlMs.map (fun ttl => now.toNat - ttl)
    let tombstoneKeepAfter := now.toNat - s.engine.tombstoneRetentionMs
    let (s₁, old) := s.mergeRun true 0 1 (s.engine.levels.length ≤ 1) expireBefore tombstoneKeepAfter
    let (s₂, rest) := cascade expireBefore tombstoneKeepAfter (s₁.engine.levels.length + 1) 0 s₁
    s₂.persistManifest.removeFiles (old ++ rest)

-- Build and install every frozen memtable that has no job in flight.
def drainFrozen : Nat → Session → Session
  | 0, s => s
  | fuel + 1, s =>
    match s.engine.takeFlushJob with
    | none => s
    | some (job, e) =>
      let sst := Engine.buildFlush job
      drainFrozen fuel ((({ s with engine := e } : Session).writeTable sst).installFlush job sst)

def flush (now : UInt64) : Session :=
  if s.engine.opts.ephemeral then s
  else
    let s₁ := if s.engine.mem.isEmpty then s else s.freeze
    (drainFrozen s₁.engine.frozen.length s₁).maybeCompact now

-- Past four frozen memtables a write flushes inline.
def maybeFlush (now : UInt64) : Session :=
  if s.engine.mem.approxBytes < s.engine.opts.flushThresholdBytes || s.engine.opts.ephemeral then s
  else if 4 ≤ s.engine.frozen.length then s.flush now
  else s.freeze

def appendBuffered (now : UInt64) (key : Bytes) (hlc : Hlc) (value : VersionValue) :
    Session × WalCommit :=
  let (s₁, commit) := s.appendOp ⟨hlc, key, value⟩
  let s₂ := s₁.modify (fun e =>
    { e with
      mem := e.mem.insert key hlc value
      writeSeq := e.writeSeq + 1
      readCache := e.readCache.invalidate key })
  (s₂.maybeFlush now, commit)

-- A local write takes its stamp from the clock; a replicated one brings it.
inductive Stamping where
  | clock
  | given (hlc : Hlc)
  deriving DecidableEq

def tick (clock : HlcClock) (wall : UInt64) : Stamping → HlcClock
  | .clock => clock.now wall
  | .given hlc => clock.observe hlc wall

def stamp (clock : HlcClock) (wall : UInt64) : Stamping → Hlc
  | .clock => (clock.now wall).last
  | .given hlc => hlc

-- The write paths differ in where the stamp comes from and whether the record
-- is synced before they return.
def write (stamping : Stamping) (sync : Bool) (wall now : UInt64) (key : Bytes) (value : VersionValue) :
    Session × Hlc × WalCommit :=
  let clock := s.engine.clock
  let hlc := stamp clock wall stamping
  let (s₁, commit) :=
    (s.modify (fun e => { e with clock := tick clock wall stamping })).appendBuffered now key hlc value
  (if sync then s₁.syncThrough commit else s₁, hlc, commit)

variable (wall now : UInt64) (key bytes : Bytes) (hlc : Hlc)

def put : Session × Hlc × WalCommit := s.write .clock true wall now key (.put bytes)

def delete : Session × Hlc × WalCommit := s.write .clock true wall now key .delete

def putDeferred : Session × Hlc × WalCommit := s.write .clock false wall now key (.put bytes)

def deleteDeferred : Session × Hlc × WalCommit := s.write .clock false wall now key .delete

def putWithHlc : Session × Hlc × WalCommit := s.write (.given hlc) true wall now key (.put bytes)

def deleteWithHlc : Session × Hlc × WalCommit := s.write (.given hlc) true wall now key .delete

def appendPutBuffered : Session × Hlc × WalCommit := s.write (.given hlc) false wall now key (.put bytes)

def appendDeleteBuffered : Session × Hlc × WalCommit := s.write (.given hlc) false wall now key .delete

end Session

end Skaidb.Storage
