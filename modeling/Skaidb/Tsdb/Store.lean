import Skaidb.Tsdb.Compact
import Skaidb.Tsdb.Log

namespace Skaidb.Tsdb

open Skaidb.Base

structure TsdbOptions where
  blockSpanMs : Int64
  retentionMs : Option Int64
  maxSeries : Nat
  oooWindowMs : Int64
  syncOnAppend : Bool
  deriving DecidableEq, Repr

section Files

-- A block's directory. Its removal takes the files one by one and is not complete at once.
structure BlockDir where
  block : Block
  complete : Bool

structure Files where
  dirs : List BlockDir
  log : Log

structure Disk where
  dirs : List BlockDir
  segments : List LogSegment

namespace Files

def addDir (b : Block) (f : Files) : Files := { f with dirs := f.dirs ++ [⟨b, true⟩] }

def breakDir (seq : Nat) (f : Files) : Files :=
  { f with dirs := f.dirs.map (fun d => if d.block.seq = seq then { d with complete := false } else d) }

def removeDir (seq : Nat) (f : Files) : Files :=
  { f with dirs := f.dirs.filter (fun d => d.block.seq ≠ seq) }

def onLog (op : Log → Log) (f : Files) : Files := { f with log := op f.log }

-- The process ends after the first `n` of the records it has not synced.
def crash (f : Files) (n : Nat) (torn : Bool) : Disk := ⟨f.dirs, f.log.crash (f.log.buffered.take n) torn⟩

end Files

end Files

-- An open store. `past` lists what the files were before each of the writes of the running
-- call, and `clock` how many rounds each of its compactions still starts within the budget.
structure Store where
  head : Head
  blocks : List Block
  nextBlockSeq : Nat
  flushedThrough : Int64
  files : Files
  past : List Files
  clock : List Nat

namespace Store

variable (s : Store)

def write (op : Files → Files) : Store :=
  { s with files := op s.files, past := s.past ++ [s.files] }

section BlockFiles

def freeSeq (dirs : List BlockDir) : (fuel : Nat) → Nat → Nat
  | 0, seq => seq
  | fuel + 1, seq => if seq ∈ dirs.map (fun d => d.block.seq) then freeSeq dirs fuel (seq + 1) else seq

def allocBlockSeq : Nat × Store :=
  let seq := freeSeq s.files.dirs (s.files.dirs.length + 1) s.nextBlockSeq
  (seq, { s with nextBlockSeq := seq + 1 })

def removeBlock (b : Block) : Store := (s.write (Files.breakDir b.seq)).write (Files.removeDir b.seq)

def removeBlocks (blocks : List Block) : Store := blocks.foldl removeBlock s

-- A block is written under the next number and joins the list.
def addBlock (level : Nat) (series : FlushedSeries) : Store :=
  let (seq, s) := s.allocBlockSeq
  let b := writeBlock seq level series
  { s.write (Files.addDir b) with blocks := sortBlocks (s.blocks ++ [b]) }

end BlockFiles

section LogFiles

def logNewSegment : Store :=
  (s.write (Files.onLog Log.sync)).write
    (Files.onLog (fun l => Log.newSegment l.segments (l.seq + 1)))

def logAppend (r : Record) : Store :=
  let s := s.write (Files.onLog (fun l => l.buffer r))
  if s.files.log.full then s.logNewSegment else s

def logSync : Store := s.write (Files.onLog Log.sync)

-- The older segments come first in the listing.
def truncateBefore (seq : Nat) : Store :=
  (s.files.log.segments.takeWhile (fun g => g.seq < seq)).foldl
    (fun s _ => s.write (Files.onLog Log.removeOldest)) s

end LogFiles

variable (o : TsdbOptions)

section Compaction

def maxMergeInputs : Nat := 256

def wideFoldMaxSamples : Nat := 2000000

def mergeCompactBacklog : Nat := 64

def without (blocks : List Block) (group : List Nat) : List Block :=
  (blocks.zipIdx.filter (fun b => b.2 ∉ group)).map Prod.fst

-- The blocks at these positions become one; then the next round may start.
def mergeRound (group : List Nat) : Store × Bool :=
  let inputs := group.filterMap (fun i => s.blocks[i]?)
  let (seq, s) := s.allocBlockSeq
  match mergeBlocks seq inputs with
  | .error _ => (s, false)
  | .ok b =>
    let blocks := sortBlocks (without s.blocks group ++ [b])
    ({ (s.write (Files.addDir b)).removeBlocks inputs with blocks := blocks }, true)

def writeWindows (s : Store) : List (Int64 × FlushedSeries) → Store × List Block
  | [] => (s, [])
  | (_, series) :: rest =>
    let (seq, s) := s.allocBlockSeq
    let b := writeBlock seq 0 series
    let (s, written) := writeWindows (s.write (Files.addDir b)) rest
    (s, b :: written)

def wideRound : Store × Bool :=
  match planWide s.blocks o.blockSpanMs maxMergeInputs wideFoldMaxSamples with
  | none => (s, false)
  | some group =>
    let inputs := group.filterMap (fun i => s.blocks[i]?)
    match wideFoldCollect inputs o.blockSpanMs with
    | .error _ => (s, false)
    | .ok windows =>
      let (s, written) := s.writeWindows windows
      let blocks := sortBlocks (without s.blocks group ++ written)
      ({ s.removeBlocks inputs.reverse with blocks := blocks }, true)

def compactRound : Store × Bool :=
  match plan s.blocks o.blockSpanMs with
  | none => s.wideRound o
  | some group =>
    if 2 ≤ (group.take maxMergeInputs).length then s.mergeRound (group.take maxMergeInputs)
    else s.wideRound o

def compactRounds (o : TsdbOptions) : Nat → Store → Store
  | 0, s => s
  | rounds + 1, s =>
    match s.compactRound o with
    | (s, true) => compactRounds o rounds s
    | (s, false) => s

-- The first round runs whatever the budget.
def compactLocked : Store :=
  compactRounds o (s.clock.headD 0 + 1) { s with clock := s.clock.tail }

end Compaction

section Flushing

def expire : Store :=
  match o.retentionMs with
  | none => s
  | some retention =>
    let cutoff := saturatingSub s.head.maxTs retention
    let gone := s.blocks.filter (fun b => b.maxTs < cutoff)
    { s.removeBlocks gone with blocks := dropExpired s.blocks cutoff }

def checkpointRecords (h : Head) (boundary : Int64) : List Record :=
  let samples := h.liveSeries.flatMap (fun s =>
    ((h.entry s.1).map (fun e => e.samples boundary Int64.maxValue)).getD [] |>.map (fun x => (s.1, x)))
  h.liveSeries.map (fun s => .series s.1 s.2) ++ if samples = [] then [] else [.samples samples]

-- Live series and samples that are not flushed yet are logged anew; then older segments go.
def checkpoint (boundary : Int64) : Store :=
  let s := s.logNewSegment
  let keep := s.files.log.seq
  let s := (checkpointRecords s.head boundary).foldl logAppend s
  s.logSync.truncateBefore keep

def moveToBlock (flushed : FlushedSeries) (head : Head) (boundary : Int64) : Store :=
  let s := { s with head := head }
  let s := if flushed = [] then s else s.addBlock 0 flushed
  { s with flushedThrough := max s.flushedThrough boundary }

def flushBefore (boundary : Int64) : Store × Result FlushedSeries :=
  match s.head.takeBefore boundary o.blockSpanMs with
  | .error e => (s, .error e)
  | .ok (flushed, head) =>
    ((((s.moveToBlock flushed head boundary).checkpoint boundary).expire o).compactLocked o, .ok flushed)

def flush : Store × Result Unit :=
  if s.head.maxTs = Int64.minValue then (s, .ok ())
  else
    let (s, flushed) := s.flushBefore o (s.head.maxTs + 1)
    (s, flushed.map (fun _ => ()))

end Flushing

section Appending

structure AppendResult where
  appended : Nat
  rejectedOutOfOrder : Nat
  rejectedSeriesLimit : Nat

structure Batch where
  result : AppendResult
  newSeries : List Record
  accepted : List (Nat × Sample)

namespace Batch

def empty : Batch := ⟨⟨0, 0, 0⟩, [], []⟩

variable (b : Batch)

def resolve (id : Nat) (labels : Labels) (created : Bool) : Batch :=
  if created then { b with newSeries := b.newSeries ++ [.series id labels] } else b

def accept (id : Nat) (s : Sample) : Batch :=
  { b with
    result := { b.result with appended := b.result.appended + 1 }
    accepted := b.accepted ++ [(id, s)] }

def rejectOutOfOrder : Batch :=
  { b with result := { b.result with rejectedOutOfOrder := b.result.rejectedOutOfOrder + 1 } }

def rejectSeriesLimit : Batch :=
  { b with result := { b.result with rejectedSeriesLimit := b.result.rejectedSeriesLimit + 1 } }

end Batch

-- After a flush that drained the buffers the sample is tried once more.
def retryRow (batch : Batch) (labels : Labels) (x : Sample) :
    Store × Result Batch :=
  match s.flushBefore o (s.head.maxTs + 1) with
  | (s, .error e) => (s, .error e)
  | (s, .ok _) =>
    match s.head.getOrCreate labels (some o.maxSeries) with
    | .error e => (s, .error e)
    | .ok (head, id, created) =>
      let batch := batch.resolve id labels created
      match head.append id x o.blockSpanMs o.oooWindowMs with
      | .ok head => ({ s with head := head }, .ok (batch.accept id x))
      | .error (.outOfOrder _ _)
      | .error .oooBufferFull => ({ s with head := head }, .ok batch.rejectOutOfOrder)
      | .error e => ({ s with head := head }, .error e)

def appendRow (batch : Batch) (labels : Labels) (x : Sample) :
    Store × Result Batch :=
  match s.head.getOrCreate labels (some o.maxSeries) with
  | .error (.seriesLimit _) => (s, .ok batch.rejectSeriesLimit)
  | .error e => (s, .error e)
  | .ok (head, id, created) =>
    let s := { s with head := head }
    let batch := batch.resolve id labels created
    match head.append id x o.blockSpanMs o.oooWindowMs with
    | .ok head => ({ s with head := head }, .ok (batch.accept id x))
    | .error (.outOfOrder _ _) => (s, .ok batch.rejectOutOfOrder)
    | .error .oooBufferFull => s.retryRow o batch labels x
    | .error e => (s, .error e)

def appendRows (o : TsdbOptions) : List (Labels × Sample) → Store → Batch → Store × Result Batch
  | [], s, batch => (s, .ok batch)
  | (labels, x) :: rows, s, batch =>
    match s.appendRow o batch labels x with
    | (s, .error e) => (s, .error e)
    | (s, .ok batch) => appendRows o rows s batch

def batchRecords (batch : Batch) : List Record :=
  batch.newSeries ++ if batch.accepted = [] then [] else [.samples batch.accepted]

-- Windows that are complete now are flushed, and a head over its byte budget altogether.
def flushDue (overBudget : Bool) : Store × Result FlushedSeries :=
  let boundary := windowOf o.blockSpanMs s.head.maxTs
  let (s, flushed) := if s.flushedThrough < boundary then s.flushBefore o boundary else (s, .ok [])
  match flushed with
  | .error e => (s, .error e)
  | .ok flushed =>
    if overBudget ∧ s.head.maxTs ≠ Int64.minValue then
      match s.flushBefore o (s.head.maxTs + 1) with
      | (s, .error e) => (s, .error e)
      | (s, .ok more) => (s, .ok (flushed ++ more))
    else (s, .ok flushed)

def appendBatchWithFlush (rows : List (Labels × Sample)) (overBudget : Bool) :
    Store × Result (AppendResult × FlushedSeries) :=
  match appendRows o rows s .empty with
  | (s, .error e) => (s, .error e)
  | (s, .ok batch) =>
    let s := (batchRecords batch).foldl logAppend s
    let s := if o.syncOnAppend then s.logSync else s
    match s.flushDue o overBudget with
    | (s, .error e) => (s, .error e)
    | (s, .ok flushed) => (s, .ok (batch.result, flushed))

end Appending

section Merging

def mergeSamples (rows : List (Labels × Sample)) : Store × Result Nat :=
  if rows = [] then (s, .ok 0)
  else
    let per := OrdMap.gather (rows.map (fun r => (r.1, [r.2])))
    let series := per.entries.map (fun e => (e.1, keepFirst Sample.ts none (sortByKey Sample.ts e.2)))
    match series.mapM (fun e => do return (e.1, ← rechunk e.2 o.blockSpanMs)) with
    | .error e => (s, .error e)
    | .ok chunks =>
      let s := s.addBlock 0 chunks
      let s := if mergeCompactBacklog < s.blocks.length then s.compactLocked o else s
      (s, .ok (series.map (fun e => e.2.length)).sum)

end Merging

section Queries

def headHits (h : Head) (matchers : List Matcher) : List (Nat × Labels) :=
  match postingsCandidates matchers h.posting h.postingRegex with
  | some candidates =>
    candidates.filterMap (fun id =>
      ((h.labelsOf id).filter (matchesAll matchers)).map (fun labels => (id, labels)))
  | none => h.seriesMatching (matchesAll matchers)

def headPieces (h : Head) (matchers : List Matcher) (t0 t1 : Int64) : Result (List (Labels × List Sample)) := do
  let hits ← (headHits h matchers).mapM (fun s => do return (s.2, ← h.samples s.1 t0 t1))
  return hits.filter (fun p => p.2 ≠ [])

def query (matchers : List Matcher) (t0 t1 : Int64) : Result (List (Labels × List Sample)) := do
  let pieces := s.blocks.flatMap (fun b => b.queryMatchers matchers t0 t1)
  let merged := OrdMap.gather (pieces ++ (← headPieces s.head matchers t0 t1))
  return merged.entries.map (fun e => (e.1, settle Sample.ts e.2))

end Queries

end Store

variable (o : TsdbOptions)

section Opening

-- Blocks are taken to end at window boundaries; from there on the log is replayed.
def recoveredBoundary (blocks : List Block) (span : Int64) : Int64 :=
  blocks.foldl (fun t b => max t ((divEuclid b.maxTs span + 1) * span)) Int64.minValue

-- The ids of the log are mapped to fresh ids of the head.
structure Replaying where
  head : Head
  idMap : OrdMap Nat Nat

def replaySample (flushedThrough : Int64) (r : Replaying) (s : Nat × Sample) : Replaying :=
  if s.2.ts < saturatingSub flushedThrough o.oooWindowMs then r
  else
    match r.idMap.get? s.1 with
    | none => r
    | some id =>
      match r.head.append id s.2 o.blockSpanMs o.oooWindowMs with
      | .ok head => { r with head := head }
      | .error _ => r

def replayRecord (flushedThrough : Int64) (r : Replaying) : Record → Replaying
  | .series id labels =>
    match r.head.getOrCreate labels none with
    | .ok (head, headId, _) => ⟨head, r.idMap.insert id headId⟩
    | .error _ => r
  | .samples batch => batch.foldl (replaySample o flushedThrough) r

def rebuildHead (flushedThrough : Int64) (records : List Record) : Head :=
  (records.foldl (replayRecord o flushedThrough) ⟨Head.new, .empty⟩).head

def Store.open (disk : Disk) : Result Store :=
  if o.blockSpanMs ≤ 0 then .error (.invalid "block_span_ms must be positive")
  else if disk.dirs.any (fun d => !d.complete) then .error (.io "entity not found")
  else
    let blocks := sortBlocks (disk.dirs.map BlockDir.block)
    let flushedThrough := recoveredBoundary blocks o.blockSpanMs
    .ok {
      head := rebuildHead o flushedThrough (replayed disk.segments)
      blocks := blocks
      nextBlockSeq := blocks.foldl (fun n b => max n (b.seq + 1)) 1
      flushedThrough := flushedThrough
      files := ⟨disk.dirs, Log.open disk.segments⟩
      past := []
      clock := [] }

end Opening

end Skaidb.Tsdb
