import Skaidb.Base.Quorum
import Skaidb.Exec.Basics
import Skaidb.Storage.Engine

namespace Skaidb.Cluster

open Skaidb.Base Skaidb.Storage Skaidb.Exec

structure NodeId where
  name : String
  deriving DecidableEq, Repr

inductive Consistency where
  | one
  | quorum
  | all
  deriving DecidableEq, Repr

def Consistency.required (level : Consistency) (rf : Nat) : Nat :=
  match level with
  | .one => 1
  | .quorum => max rf 1 / 2 + 1
  | .all => max rf 1

def isStrong (read write : Consistency) (rf : Nat) : Bool :=
  rf < read.required rf + write.required rf

def shedError : EngineError := .cluster "memory pressure: node is shedding writes, retry"

-- The nodes' copies of one row: every version each node has applied, last first.
structure Copies where
  applied : NodeId → List Version

variable (c : Copies)

namespace Copies

def apply (node : NodeId) (v : Version) : Copies :=
  ⟨Function.update c.applied node (v :: c.applied node)⟩

-- Writes of other coordinators, hints, repairs and background tails, as they land.
def land (writes : List (NodeId × Version)) : Copies :=
  writes.foldl (fun c w => c.apply w.1 w.2) c

def highest (node : NodeId) : Option Version :=
  (c.applied node).foldr (fun v best => pick (some v) best) none

def localGetVersioned (node : NodeId) : Option (Bytes × Hlc × Bool) :=
  (c.highest node).map (fun v => match v with
    | (hlc, .put bytes) => (bytes, hlc, true)
    | (hlc, .delete) => ([], hlc, false))

end Copies

structure Node where
  id : NodeId
  peerAddr : NodeId → Option String
  writeConsistency : Consistency
  readConsistency : Consistency
  clock : HlcClock
  ttlMs : Option Nat

abbrev Peer := NodeId × String

def Node.peersOf (n : Node) (replicas : List NodeId) : List Peer :=
  (replicas.filter (fun r => r ≠ n.id)).filterMap (fun r => (n.peerAddr r).map (fun addr => (r, addr)))

-- How many peers are asked at once: the quorum less the coordinator's own copy.
def firstCount (needed : Nat) (own : Bool) (peers : List (Peer × Nat)) : Nat :=
  min (needed - (if own then 1 else 0)) peers.length

-- One write sent to a peer: what lands anywhere before the answer is in, and the
-- answer. A peer whose ack is lost may have applied the write all the same.
inductive WriteAnswer where
  | ack
  | failed (applied : Bool)
  deriving DecidableEq

structure WriteCall where
  landed : List (NodeId × Version)
  answer : WriteAnswer

-- Everything `replicate` depends on besides its arguments. `call i` is what
-- happens to the send to the `i`-th peer.
structure WriteEnv where
  shedding : Bool
  landed : List (NodeId × Version)
  applyError : Option EngineError
  syncOk : Bool
  call : Nat → WriteCall
  queueFull : Bool

-- `acked` has the peers `note_acked` was called for, `hinted` those a hint was stored for.
structure Fanout where
  acks : Nat
  acked : List NodeId
  hinted : List NodeId

def sendWrite (peer : NodeId) (v : Version) (call : WriteCall) : Copies × Bool :=
  match call.answer with
  | .ack => ((c.land call.landed).apply peer v, true)
  | .failed true => ((c.land call.landed).apply peer v, false)
  | .failed false => (c.land call.landed, false)

def sendWave (v : Version) (call : Nat → WriteCall) :
    Copies → List (Peer × Nat) → Copies × List (NodeId × Bool)
  | c, [] => (c, [])
  | c, ((peer, _), i) :: rest =>
    let sent := sendWrite c peer v (call i)
    let others := sendWave v call sent.1 rest
    (others.1, (peer, sent.2) :: others.2)

def Fanout.collect (f : Fanout) : List (NodeId × Bool) → Fanout
  | [] => f
  | (replica, true) :: rest =>
    Fanout.collect { f with acks := f.acks + 1, acked := f.acked ++ [replica] } rest
  | (replica, false) :: rest => Fanout.collect { f with hinted := f.hinted ++ [replica] } rest

-- While short of the quorum, the next replicas take the place of those that failed. A wave
-- takes at least one, so `untried.length` rounds are enough.
def retryWaves (needed : Nat) (v : Version) (call : Nat → WriteCall) :
    Nat → Copies → Fanout → List (Peer × Nat) → Copies × Fanout × List (Peer × Nat)
  | 0, c, f, untried => (c, f, untried)
  | fuel + 1, c, f, untried =>
    if f.acks < needed ∧ untried ≠ [] then
      let take := min (needed - f.acks) untried.length
      let sent := sendWave v call c (untried.take take)
      retryWaves needed v call fuel sent.1 (f.collect sent.2) (untried.drop take)
    else (c, f, untried)

structure WriteOutcome where
  copies : Copies
  fanout : Fanout
  background : List NodeId
  result : Except EngineError Unit

def writeResult (needed acks : Nat) : Except EngineError Unit :=
  if needed ≤ acks then .ok ()
  else .error (.cluster s!"write quorum not met: {acks}/{needed} acks")

-- Steps 2 and 3 of a write: the synchronous sends, the retry waves, and the
-- remaining replicas handed to the background queue, or hinted when it is full.
def fanOut (needed : Nat) (buffered : Bool) (peers : List (Peer × Nat)) (c : Copies) (v : Version)
    (env : WriteEnv) : WriteOutcome :=
  let first := firstCount needed buffered peers
  let sent := sendWave v env.call c (peers.take first)
  let localOk := buffered && env.syncOk
  let f := Fanout.collect ⟨if localOk then 1 else 0, [], []⟩ sent.2
  let tried := retryWaves needed v env.call peers.length sent.1 f (peers.drop first)
  let f := tried.2.1
  let rest := tried.2.2.map (fun p => p.1.1)
  { copies := tried.1
    fanout := if env.queueFull then { f with hinted := f.hinted ++ rest } else f
    background := if env.queueFull then [] else rest
    result := writeResult needed f.acks }

def Node.replicate (n : Node) (c : Copies) (replicas : List NodeId) (oc : Option Consistency)
    (v : Version) (env : WriteEnv) : WriteOutcome :=
  let needed := (oc.getD n.writeConsistency).required (max replicas.length 1)
  let peers := (n.peersOf replicas).zipIdx
  if env.shedding then ⟨c, ⟨0, [], []⟩, [], .error shedError⟩
  else if n.id ∈ replicas then
    match env.applyError with
    | some e => ⟨c.land env.landed, ⟨0, [], []⟩, [], .error e⟩
    -- the memtable has the row before the fsync lands
    | none => fanOut needed true peers ((c.land env.landed).apply n.id v) v env
  else fanOut needed false peers (c.land env.landed) v env

-- What happens around a point read. `landed` are the writes that land anywhere
-- while it runs; a replica answers after some number of them, in any order, and
-- `reply i` is `none` when the `i`-th peer gives no usable answer.
structure ReadEnv where
  landed : List (NodeId × Version)
  localAt : Nat
  localError : Option EngineError
  reply : Nat → Option Nat
  wall : UInt64

structure Gathered where
  responders : Nat
  best : Option (Hlc × Option Bytes)
  seen : List (Option String × Option Hlc)

def Gathered.merge (g : Gathered) (addr : Option String) (entry : Option (Bytes × Hlc × Bool)) :
    Gathered :=
  { responders := g.responders + 1
    best := match entry with
      | some (value, hlc, isPut) =>
        if g.best.all (fun b => b.1 < hlc) then some (hlc, if isPut then some value else none)
        else g.best
      | none => g.best
    seen := g.seen ++ [(addr, entry.map (fun e => e.2.1))] }

def Gathered.hear (g : Gathered) (c : Copies) (env : ReadEnv) (peer : Peer × Nat) : Gathered :=
  match env.reply peer.2 with
  | some at_ => g.merge (some peer.1.2) ((c.land (env.landed.take at_)).localGetVersioned peer.1.1)
  | none => g

def shortfall (needed : Nat) (c : Copies) (env : ReadEnv) : Gathered → List (Peer × Nat) → Gathered
  | g, [] => g
  | g, peer :: untried =>
    if g.responders < needed then shortfall needed c env (g.hear c env peer) untried else g

def readRepair (hbest : Hlc) (seen : List (Option String × Option Hlc)) : List (Option String) :=
  (seen.filter (fun s => !s.2.any (fun h => hbest ≤ h))).map (fun s => s.1)

structure ReadOutcome (Doc : Type) where
  best : Option (Hlc × Option Bytes)
  clock : HlcClock
  repaired : List (Option String)
  rows : List (Bytes × Doc)

section Read

variable {Doc : Type} (decode : Bytes → Except String (Option Doc))

-- The expiry filter is applied to the winning version, then the row is decoded;
-- a value that is no document gives no row.
def Node.serve (n : Node) (wall : UInt64) (key : Bytes) :
    Option (Hlc × Option Bytes) → Except EngineError (List (Bytes × Doc))
  | some (hlc, some value) =>
    if rowExpired n.ttlMs wall hlc then .ok []
    else match decode value with
      | .error e => .error (.cluster s!"corrupt row: {e}")
      | .ok (some doc) => .ok [(key, doc)]
      | .ok none => .ok []
  | _ => .ok []

def gather (needed first : Nat) (peers : List (Peer × Nat)) (c : Copies) (env : ReadEnv)
    (g : Gathered) : Gathered :=
  shortfall needed c env ((peers.take first).foldl (fun g peer => g.hear c env peer) g)
    (peers.drop first)

def Node.answer (n : Node) (needed : Nat) (key : Bytes) (wall : UInt64) (g : Gathered) :
    Except EngineError (ReadOutcome Doc) :=
  if g.responders < needed then
    .error (.cluster s!"read quorum not met: {g.responders}/{needed} replicas responded")
  else do
    let rows ← n.serve decode wall key g.best
    return {
      best := g.best
      clock := match g.best with
        | some (hlc, _) => n.clock.observe hlc wall
        | none => n.clock
      repaired := match g.best with
        | some (hlc, _) => readRepair hlc g.seen
        | none => []
      rows }

def Node.pointGet (n : Node) (c : Copies) (replicas : List NodeId) (oc : Option Consistency)
    (key : Bytes) (env : ReadEnv) : Except EngineError (ReadOutcome Doc) :=
  let needed := (oc.getD n.readConsistency).required (max replicas.length 1)
  let peers := (n.peersOf replicas).zipIdx
  if n.id ∈ replicas then
    match env.localError with
    | some e => .error e
    | none =>
      let entry := (c.land (env.landed.take env.localAt)).localGetVersioned n.id
      n.answer decode needed key env.wall
        (gather needed (firstCount needed true peers) peers c env
          (Gathered.merge ⟨0, none, []⟩ none entry))
  else
    n.answer decode needed key env.wall
      (gather needed (firstCount needed false peers) peers c env ⟨0, none, []⟩)

end Read

end Skaidb.Cluster
