import Skaidb.Base.Pages
import Skaidb.Base.Results
import Skaidb.Cluster.Repair

namespace Skaidb.Cluster

open Skaidb.Base Skaidb.Exec Skaidb.Storage Skaidb.Types

inductive TablePlacement where
  | default
  | rf (n : Nat)
  | pinned (pins : List NodeId)
  deriving DecidableEq

def scanPageRows : Nat := 2000

def localScanBatchRows : Nat := 20000

-- What one pass makes of the matching rows. `distinct` reads a row's column as the
-- encoded key of its value and the value, when there is one that is not NULL.
inductive CollectSink (Doc : Type) where
  | rows (limit : Option Nat)
  | count
  | distinct (column : Doc → Option (Bytes × Value))

def CollectSink.limit {Doc : Type} : CollectSink Doc → Option Nat
  | .rows limit => limit
  | _ => none

-- The arguments of a scan. `range` is the key range the filter pins, if it pins one;
-- `prune`, `decode` and `matchesFilter` work on a row's bytes and document.
structure ScanQuery (Doc : Type) where
  range : Option (Bytes × Option Bytes)
  keep : Option (List Bytes)
  sink : CollectSink Doc
  prune : Bytes → Except EngineError Bytes
  decode : Bytes → Except EngineError Doc
  matchesFilter : Doc → Except EngineError Bool

-- What the other side does, round by round: the rows each member holds when it is
-- asked, and whether a peer answers. The scan meter may stop a round.
structure ScanEnv where
  shard : Nat → NodeId → OrdMap Bytes Version
  reply : Nat → NodeId → Bool
  localError : Nat → Option EngineError
  overBudget : Nat → Option EngineError
  wall : UInt64

structure Source where
  id : NodeId
  cursor : Option Bytes
  done : Bool
  ok : Bool

def Source.active (s : Source) : Bool := !s.done && s.ok

abbrev Merged := OrdMap Bytes (Hlc × Option Bytes)

structure Found (Doc : Type) where
  rows : List (Bytes × Doc)
  count : Nat
  distinct : OrdMap Bytes Value

-- The state of the gather loop. `decided` has every winner that was finalized.
structure Gather (Doc : Type) where
  own : Option Source
  peers : List Source
  merged : Merged
  maxHlc : Option Hlc
  decided : List (Bytes × Hlc × Option Bytes)
  found : Found Doc

section Pull

variable {Doc : Type} (q : ScanQuery Doc) (env : ScanEnv)

-- Cut a page at the exclusive end of the range; whether the bound was reached.
def clamp (finish : Option Bytes) (rows : List BatchRow) : List BatchRow × Bool :=
  match finish with
  | none => (rows, false)
  | some stop => (rows.takeWhile (fun r => r.key < stop), rows.any (fun r => stop ≤ r.key))

def mergeRow (merged : Merged) (key : Bytes) (value : Option Bytes) (hlc : Hlc) : Merged :=
  match merged.get? key with
  | some held => if held.1 < hlc then merged.insert key (hlc, value) else merged
  | none => merged.insert key (hlc, value)

def rowValue (row : BatchRow) : Except EngineError (Option Bytes) :=
  if row.isPut then (q.prune row.value).map some else .ok none

def mergeRows : Merged → List BatchRow → Except EngineError Merged
  | merged, [] => .ok merged
  | merged, row :: rows => do
      let value ← rowValue q row
      mergeRows (mergeRow merged row.key value row.hlc) rows

def ScanQuery.rangeEnd (q : ScanQuery Doc) : Option Bytes := q.range.bind Prod.snd

-- A page of `limit` rows of a source, cut at the end of the range, and the source
-- after it: a short page or the bound ends it.
def Source.page (finish : Option Bytes) (limit : Nat) (shard : OrdMap Bytes Version) (s : Source) :
    List BatchRow × Source :=
  let rows := (shard.page s.cursor limit).map BatchRow.ofVersion
  let clamped := clamp finish rows
  (clamped.1,
    { s with
      cursor := (clamped.1.getLast?.map BatchRow.key).or s.cursor
      done := rows.length < limit || clamped.2 })

def pullLocal (t : Nat) (g : Gather Doc) : Except EngineError (Gather Doc) :=
  match g.own with
  | none => .ok g
  | some s =>
    if s.done then .ok g
    else match env.localError t with
      | some e => .error e
      | none => do
          let pulled := s.page q.rangeEnd localScanBatchRows (env.shard t s.id)
          let merged ← mergeRows q g.merged pulled.1
          return { g with own := some pulled.2, merged }

def pullPeer (t : Nat) (merged : Merged) (s : Source) : Except EngineError (Merged × Source) :=
  if !s.active then .ok (merged, s)
  else if env.reply t s.id then do
    let pulled := s.page q.rangeEnd scanPageRows (env.shard t s.id)
    let merged ← mergeRows q merged pulled.1
    return (merged, pulled.2)
  else .ok (merged, { s with ok := false, done := true })

def pullPeers (t : Nat) : Merged → List Source → Except EngineError (Merged × List Source)
  | merged, [] => .ok (merged, [])
  | merged, s :: peers => do
      let (merged, s) ← pullPeer q env t merged s
      let (merged, peers) ← pullPeers t merged peers
      return (merged, s :: peers)

end Pull

section Decide

variable {Doc : Type} (q : ScanQuery Doc) (env : ScanEnv) (ttlMs : Option Nat)

def Gather.sources (g : Gather Doc) : List Source := g.own.toList ++ g.peers

def Gather.frontiers (g : Gather Doc) : List Bytes :=
  (g.sources.filter Source.active).filterMap Source.cursor

-- Every key up to the least of them is final; when none is left, every key is.
def Gather.finalized (g : Gather Doc) : List (Bytes × Hlc × Option Bytes) :=
  match g.frontiers.min? with
  | some least => g.merged.entries.filter (fun e => e.1 ≤ least)
  | none => g.merged.entries

def Gather.filled (g : Gather Doc) : Bool := q.sink.limit.any (fun l => l ≤ g.found.rows.length)

def Found.collect (sink : CollectSink Doc) (f : Found Doc) (key : Bytes) (doc : Doc) : Found Doc :=
  match sink with
  | .rows _ => { f with rows := f.rows ++ [(key, doc)] }
  | .count => { f with count := f.count + 1 }
  | .distinct column =>
    match column doc with
    | some (k, v) =>
      { f with distinct := if (f.distinct.get? k).isSome then f.distinct else f.distinct.insert k v }
    | none => f

-- What is made of a winner: an expired one, one that is no candidate and a
-- tombstone are merged but not served.
def serveWinner (f : Found Doc) (key : Bytes) (hlc : Hlc) (value : Option Bytes) :
    Except EngineError (Found Doc) :=
  if rowExpired ttlMs env.wall hlc then .ok f
  else if q.keep.any (fun keys => key ∉ keys) then .ok f
  else match value with
    | none => .ok f
    | some bytes => do
        let doc ← q.decode bytes
        let hit ← q.matchesFilter doc
        return if hit then f.collect q.sink key doc else f

def finalize : List (Bytes × Hlc × Option Bytes) → Gather Doc → Except EngineError (Gather Doc)
  | [], g => .ok g
  | (key, hlc, value) :: rest, g => do
      let found ← serveWinner q env ttlMs g.found key hlc value
      let next := { g with
        merged := g.merged.erase key
        maxHlc := some (g.maxHlc.elim hlc (fun m => max m hlc))
        decided := g.decided ++ [(key, hlc, value)]
        found }
      if g.found.rows.length < found.rows.length && next.filled q then .ok next
      else finalize rest next

def scanRound (t : Nat) (g : Gather Doc) : Except EngineError (Gather Doc × Bool) := do
  let g ← pullLocal q env t g
  let (merged, peers) ← pullPeers q env t g.merged g.peers
  let g := { g with merged, peers }
  match env.overBudget t with
  | some e => throw e
  | none =>
    let last := g.frontiers.isEmpty
    let g ← finalize q env ttlMs g.finalized g
    return (g, g.filled q || last)

-- The rounds of a scan; `none` is a scan that has not come to its end.
def scanLoop : (fuel : Nat) → Nat → Gather Doc → Option (Except EngineError (Gather Doc))
  | 0, _, _ => none
  | fuel + 1, t, g =>
    match scanRound q env ttlMs t g with
    | .error e => some (.error e)
    | .ok (g, true) => some (.ok g)
    | .ok (g, false) => scanLoop fuel (t + 1) g

end Decide

section Scan

variable {Doc : Type}

structure ScanOutcome (Doc : Type) where
  decided : List (Bytes × Hlc × Option Bytes)
  found : Found Doc
  clock : HlcClock

-- The sources of a table: whether the coordinator's own shard is one, the peers, and
-- the quorum divisor. A pinned table is read from its pins, any other from every member.
def Node.scanSources (n : Node) (topo : List Peer) : TablePlacement → Bool × List NodeId × Nat
  | .pinned pins =>
    (decide (n.id ∈ pins), (n.peersOf pins).map Prod.fst, pins.length)
  | _ => (true, topo.map Prod.fst, topo.length + 1)

def Gather.start (q : ScanQuery Doc) (own : Option NodeId) (peers : List NodeId) : Gather Doc :=
  let cursor := q.range.map Prod.fst
  { own := own.map (fun id => ⟨id, cursor, false, true⟩)
    peers := peers.map (fun id => ⟨id, cursor, false, true⟩)
    merged := OrdMap.empty
    maxHlc := none
    decided := []
    found := ⟨[], 0, OrdMap.empty⟩ }

def Gather.responders (g : Gather Doc) : List NodeId :=
  (g.sources.filter (fun s => s.ok)).map Source.id

def Node.clusterScanCollect (n : Node) (topo : List Peer) (placement : TablePlacement)
    (oc : Option Consistency) (q : ScanQuery Doc) (env : ScanEnv) (fuel : Nat) :
    Option (Except EngineError (ScanOutcome Doc)) :=
  let (localActive, peers, divisor) := n.scanSources topo placement
  let needed := (oc.getD n.readConsistency).required divisor
  let start := Gather.start q (if localActive then some n.id else none) peers
  (scanLoop q env n.ttlMs fuel 0 start).map (fun result => do
    let g ← result
    if g.responders.length < needed then
      throw (.cluster s!"read quorum not met: {g.responders.length}/{needed} members responded")
    else
      return {
        decided := g.decided
        found := { g.found with rows := q.sink.limit.elim g.found.rows g.found.rows.take }
        clock := match g.maxHlc with
          | some hlc => n.clock.observe hlc env.wall
          | none => n.clock })

end Scan

end Skaidb.Cluster
