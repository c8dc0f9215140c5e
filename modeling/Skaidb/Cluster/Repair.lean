import Skaidb.Cluster.Coordinator
import Skaidb.Exec.Table

namespace Skaidb.Storage

open Skaidb.Base

def beyond (after : Option Bytes) (key : Bytes) : Bool := after.all (fun a => a < key)

def Memtable.rangeLatestPage (m : Memtable) (after : Option Bytes) (limit : Nat) :
    List (Bytes × Version) :=
  (firstPerKey none (m.iterVersions.filter (fun e => beyond after e.1))).take limit

def Engine.scanVersionedPage (e : Engine) (after : Option Bytes) (limit : Nat) :
    List (Bytes × Version) :=
  ((mergeSources (e.memtables.map (fun m => m.rangeLatestPage after limit) ++
    e.sstablesNewestFirst.map (fun t => t.entries.entries))).filter
      (fun row => beyond after row.1)).take limit

end Skaidb.Storage

namespace Skaidb.Cluster

open Skaidb.Base Skaidb.Exec Skaidb.Storage

structure BatchRow where
  key : Bytes
  value : Bytes
  hlc : Hlc
  isPut : Bool
  deriving DecidableEq, Repr

def BatchRow.ofVersion : Bytes × Version → BatchRow
  | (key, hlc, .put bytes) => ⟨key, bytes, hlc, true⟩
  | (key, hlc, .delete) => ⟨key, [], hlc, false⟩

def BatchRow.op (row : BatchRow) : VersionValue := if row.isPut then .put row.value else .delete

def repairPageRows : Nat := 2000

def localScanVersionedPage (e : Engine) (after : Option Bytes) : List BatchRow :=
  (e.scanVersionedPage after repairPageRows).map BatchRow.ofVersion

section Digest

def fnv1a (bytes : Bytes) : UInt64 :=
  bytes.foldl (fun h b => (h ^^^ b.toUInt64) * 0x100000001b3) 0xcbf29ce484222325

def repairDigestBuckets : Nat := 4096

def fingerprint (row : BatchRow) : UInt64 :=
  fnv1a (row.key ++ row.hlc.toBytes ++ [if row.isPut then 1 else 0])

def digestRows (owned : Bytes → Bool) (buckets : List UInt64) (rows : List BatchRow) : List UInt64 :=
  (rows.filter (fun row => owned row.key)).foldl (fun buckets row =>
    buckets.modify ((fnv1a row.key >>> 52).toNat % repairDigestBuckets) (· ^^^ fingerprint row)) buckets

def digestPages (e : Engine) (owned : Bytes → Bool) : Nat → Option Bytes → List UInt64 → List UInt64
  | 0, _, buckets => buckets
  | fuel + 1, after, buckets =>
    let rows := localScanVersionedPage e after
    match rows.getLast? with
    | none => buckets
    | some last =>
      let buckets := digestRows owned buckets rows
      if rows.length < repairPageRows then buckets
      else digestPages e owned fuel (some last.key) buckets

def repairDigest (e : Engine) (owned : Bytes → Bool) : List UInt64 :=
  digestPages e owned (e.mergedIter.length + 1) none (List.replicate repairDigestBuckets 0)

end Digest

section Batches

def applyChunkRows : Nat := 64

def isFresh (p : Process) (row : BatchRow) : Bool :=
  match (p.engine.getVersioned row.key).1 with
  | some (cur, _) => cur < row.hlc
  | none => true

def applyRows (ticks : Nat → Tick) : Nat → List BatchRow → Process → Process
  | _, [], p => p
  | i, row :: rows, p =>
    applyRows ticks (i + 1) rows
      (p.step (.write (.given row.hlc) false (ticks i).wall (ticks i).now row.key row.op))

-- The rows of a chunk are looked up first, then those still fresh are appended.
def applyChunks (ticks : Nat → Tick) : Nat → Nat → List BatchRow → Process → Process
  | 0, _, _, p => p
  | fuel + 1, i, rows, p =>
    if rows.isEmpty then p
    else
      let chunk := rows.take applyChunkRows
      let fresh := chunk.filter (isFresh p)
      let looked := chunk.foldl (fun p row => p.step (.read row.key)) p
      applyChunks ticks fuel (i + fresh.length) (rows.drop applyChunkRows)
        (applyRows ticks i fresh looked)

def applyBatchLocal (ticks : Nat → Tick) (rows : List BatchRow) (p : Process) : Process :=
  let applied := applyChunks ticks rows.length 0 rows p
  if p.commits.length < applied.commits.length then applied.step (.sync (applied.commits.length - 1))
  else applied

end Batches

structure PageCursor where
  buf : List BatchRow
  last : Option Bytes
  done : Bool

namespace PageCursor

def new : PageCursor := ⟨[], none, false⟩

def needsFill (c : PageCursor) : Bool := c.buf.isEmpty && !c.done

def fill (c : PageCursor) (rows : List BatchRow) : PageCursor :=
  { buf := rows
    last := (rows.getLast?.map BatchRow.key).or c.last
    done := c.done || rows.length < repairPageRows }

def pop (c : PageCursor) : PageCursor := { c with buf := c.buf.tail }

end PageCursor

inductive RepairPeerError where
  | unpaged
  | unreachable
  deriving DecidableEq, Repr

inductive ScanAnswer where
  | rows
  | unknownOp
  | busy
  | failed
  deriving DecidableEq

inductive PushAnswer where
  | ack
  | failed (applied : Bool)
  deriving DecidableEq

structure RepairEnv where
  digestAnswered : Bool
  scan : Nat → ScanAnswer
  push : Nat → PushAnswer
  selfTicks : Nat → Nat → Tick
  peerTicks : Nat → Nat → Tick

-- Both sides of a pass with its cursors and pending batches. `found` has every row
-- the comparison put into a batch.
structure RepairState where
  self : Process
  peer : Process
  mine : PageCursor
  theirs : PageCursor
  pull : List BatchRow
  push : List BatchRow
  repaired : Nat
  found : List BatchRow
  scans : Nat
  pulls : Nat
  sends : Nat

def repairBusyRetries : Nat := 30

namespace RepairState

def start (self peer : Process) : RepairState := ⟨self, peer, .new, .new, [], [], 0, [], 0, 0, 0⟩

def fillLocal (s : RepairState) : RepairState :=
  if s.mine.needsFill then { s with mine := s.mine.fill (localScanVersionedPage s.self.engine s.mine.last) }
  else s

-- A busy peer is asked again; one that stays busy counts as unreachable.
def scanPage (env : RepairEnv) : Nat → RepairState → Except RepairPeerError RepairState
  | 0, _ => .error .unreachable
  | retries + 1, s =>
    match env.scan s.scans with
    | .rows => .ok { s with
        scans := s.scans + 1
        theirs := s.theirs.fill (localScanVersionedPage s.peer.engine s.theirs.last) }
    | .unknownOp => .error .unpaged
    | .busy => scanPage env retries { s with scans := s.scans + 1 }
    | .failed => .error .unreachable

variable (env : RepairEnv)

def fillRemote (s : RepairState) : Except RepairPeerError RepairState :=
  if s.theirs.needsFill then s.scanPage env repairBusyRetries else .ok s

-- A row goes to the side that is behind, if that side replicates the key.
def offerPush (ownedByPeer : Bytes → Bool) (s : RepairState) (row : BatchRow) : RepairState :=
  if ownedByPeer row.key then { s with push := s.push ++ [row], found := s.found ++ [row] } else s

def offerPull (ownedBySelf : Bytes → Bool) (s : RepairState) (row : BatchRow) : RepairState :=
  if ownedBySelf row.key then { s with pull := s.pull ++ [row], found := s.found ++ [row] } else s

def popMine (s : RepairState) : RepairState := { s with mine := s.mine.pop }

def popTheirs (s : RepairState) : RepairState := { s with theirs := s.theirs.pop }

-- Advance the smaller key; equal keys are compared by their stamps alone. Nothing
-- is left when both sides are empty.
def mergeStep (ownedBySelf ownedByPeer : Bytes → Bool) (s : RepairState) : Option RepairState :=
  match s.mine.buf, s.theirs.buf with
  | [], [] => none
  | l :: _, [] => some (s.popMine.offerPush ownedByPeer l)
  | [], r :: _ => some (s.popTheirs.offerPull ownedBySelf r)
  | l :: _, r :: _ =>
    if l.key < r.key then some (s.popMine.offerPush ownedByPeer l)
    else if r.key < l.key then some (s.popTheirs.offerPull ownedBySelf r)
    else if r.hlc < l.hlc then some (s.popMine.popTheirs.offerPush ownedByPeer l)
    else if l.hlc < r.hlc then some (s.popMine.popTheirs.offerPull ownedBySelf r)
    else some s.popMine.popTheirs

def repairApplyPull (s : RepairState) : RepairState :=
  if s.pull.isEmpty then s
  else { s with
    self := applyBatchLocal (env.selfTicks s.pulls) s.pull s.self
    repaired := s.repaired + s.pull.length
    pulls := s.pulls + 1
    pull := [] }

def repairSendPush (s : RepairState) : RepairState :=
  if s.push.isEmpty then s
  else
    let peer := applyBatchLocal (env.peerTicks s.sends) s.push s.peer
    let sent := { s with sends := s.sends + 1, push := [] }
    match env.push s.sends with
    | .ack => { sent with peer := peer, repaired := s.repaired + s.push.length }
    | .failed true => { sent with peer := peer }
    | .failed false => sent

def flushFull (s : RepairState) : RepairState :=
  let s := if repairPageRows ≤ s.pull.length then s.repairApplyPull env else s
  if repairPageRows ≤ s.push.length then s.repairSendPush env else s

-- One pass round the loop per row. `none` is a pass that has not come to its end.
def loop (ownedBySelf ownedByPeer : Bytes → Bool) (env : RepairEnv) :
    Nat → RepairState → RepairState × Option (Except RepairPeerError Nat)
  | 0, s => (s, none)
  | fuel + 1, s =>
    match s.fillLocal.fillRemote env with
    | .error e => (s.fillLocal, some (.error e))
    | .ok filled =>
      match filled.mergeStep ownedBySelf ownedByPeer with
      | some next => loop ownedBySelf ownedByPeer env fuel (next.flushFull env)
      | none =>
        let s := (filled.repairApplyPull env).repairSendPush env
        (s, some (.ok s.repaired))

end RepairState

-- Anti-entropy between a node and one peer over one table. The digests cover the
-- rows that either side replicates.
def repairTableWith (owners : Bytes → List NodeId) (self peer : NodeId) (env : RepairEnv) (fuel : Nat)
    (mine theirs : Process) : RepairState × Option (Except RepairPeerError Nat) :=
  let owned := fun key => (owners key).contains self || (owners key).contains peer
  if env.digestAnswered ∧ repairDigest theirs.engine owned = repairDigest mine.engine owned then
    (.start mine theirs, some (.ok 0))
  else
    RepairState.loop (fun key => (owners key).contains self) (fun key => (owners key).contains peer)
      env fuel (.start mine theirs)

end Skaidb.Cluster
