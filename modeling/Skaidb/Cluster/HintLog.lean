import Skaidb.Base.Grouping
import Skaidb.Cluster.HintRecord
import Mathlib.Data.String.Basic
import Mathlib.Logic.Function.Basic

namespace Skaidb.Cluster

open Skaidb.Base Skaidb.Storage

def safeName (replica : NodeId) : String :=
  String.ofList (replica.name.toList.map (fun c => if c.isAlphanum then c else '_'))

def hintPageRecords : Nat := 1024

def hintReadChunk : Nat := 2 ^ 20

inductive HintTask where
  | send (table : String) (rows : List Hint)
  | respill (hint : Hint)

def HintTask.hints : HintTask → List Hint
  | .send _ rows => rows
  | .respill hint => [hint]

inductive DrainStage where
  | claimed
  | reading
  | handling
  | returning
  | removing
  deriving DecidableEq

structure Drain where
  replica : NodeId
  stage : DrainStage
  stream : Decoder.Stream UInt8
  tasks : List HintTask
  aborted : Bool

inductive Flusher where
  | worker
  | ticker
  deriving DecidableEq

-- The hint files of a node by log name, its drains, and what has been spilled completely,
-- acknowledged and sent, for which replica.
structure HintFiles where
  live : String → Option Bytes
  draining : String → Option Bytes
  drain : Flusher → Option Drain
  spilled : List (NodeId × Hint)
  acked : List (NodeId × Hint)
  sent : List (NodeId × Hint)

inductive HintEvent where
  | spill (replica : NodeId) (hint : Hint)
  | tornSpill (replica : NodeId) (hint : Hint) (kept : Nat)
  | claim (t : Flusher) (replica : NodeId)
  | openClaimed (t : Flusher) (ok : Bool)
  | page (t : Flusher) (readable : Bool)
  | send (t : Flusher) (ok : Bool)
  | respill (t : Flusher) (kept : Option Nat)
  | giveBack (t : Flusher) (kept : Option (Nat × Nat))
  | remove (t : Flusher)
  | crash

namespace Drain

def path (d : Drain) : String := safeName d.replica

def settle (d : Drain) : Drain :=
  match d.tasks with
  | [] =>
    { d with stage :=
        if d.aborted then .returning
        else if d.stream.eof && d.stream.buf.isEmpty then .removing
        else .reading }
  | _ :: _ => { d with stage := .handling }

def readPage (lossy : Bytes → String) (readable : Bool) (d : Drain) : Drain :=
  let (page, stream) := Decoder.fill (decodeHintRecord lossy) hintPageRecords hintReadChunk readable
    (2 * d.stream.unread.length + d.stream.buf.length + 2) [] d.stream
  if page.isEmpty then { d with stream := stream, stage := .removing }
  else
    { d with
      stream := stream
      tasks := (OrdMap.gather (page.map (fun h => (h.table, [h])))).entries.map (fun g => .send g.1 g.2)
      stage := .handling }

-- After a failed send, this group and those behind it go back to the log row by row.
def giveUp (d : Drain) : Drain :=
  { d with aborted := true, tasks := (d.tasks.flatMap HintTask.hints).map .respill }

end Drain

namespace HintFiles

variable (lossy : Bytes → String) (s : HintFiles)

def start : HintFiles := ⟨fun _ => none, fun _ => none, fun _ => none, [], [], []⟩

def append (path : String) (bytes : Bytes) : HintFiles :=
  { s with live := Function.update s.live path (some ((s.live path).getD [] ++ bytes)) }

variable (t : Flusher)

def setDrain (d : Option Drain) : HintFiles := { s with drain := Function.update s.drain t d }

def cut (kept : Option Nat) (bytes : Bytes) : Bytes := kept.elim bytes bytes.take

-- The log is renamed; whatever had the new name is gone.
def claim (replica : NodeId) : HintFiles :=
  match s.live (safeName replica) with
  | none => s
  | some data =>
    { s with
      live := Function.update s.live (safeName replica) none
      draining := Function.update s.draining (safeName replica) (some data)
      drain := Function.update s.drain t (some ⟨replica, .claimed, ⟨[], [], false⟩, [], false⟩) }

def removeDraining (d : Drain) : HintFiles :=
  { s with
    draining := Function.update s.draining d.path none
    drain := Function.update s.drain t none }

def openClaimed (ok : Bool) (d : Drain) : HintFiles :=
  match d.stage, s.draining d.path, ok with
  | .claimed, some data, true =>
    s.setDrain t (some ⟨d.replica, .reading, ⟨[], data, false⟩, [], false⟩)
  | .claimed, _, _ => s.removeDraining t d
  | _, _, _ => s

def send (ok : Bool) (d : Drain) : HintFiles :=
  match d.stage, d.tasks with
  | .handling, .send _ rows :: rest =>
    let batch := rows.map (fun h => (d.replica, h))
    if ok then
      { s.setDrain t (some { d with tasks := rest }.settle) with
        acked := batch ++ s.acked, sent := batch ++ s.sent }
    else { s.setDrain t (some d.giveUp.settle) with sent := batch ++ s.sent }
  | _, _ => s

def respill (kept : Option Nat) (d : Drain) : HintFiles :=
  match d.stage, d.tasks with
  | .handling, .respill h :: rest =>
    (s.append d.path (cut kept (encodeHintRecord h))).setDrain t (some { d with tasks := rest }.settle)
  | _, _ => s

def giveBack (kept : Option (Nat × Nat)) (d : Drain) : HintFiles :=
  match d.stage with
  | .returning =>
    (match kept with
      | none => s
      | some (k, l) => s.append d.path (d.stream.buf.take k ++ d.stream.unread.take l)).setDrain t
        (some { d with stage := .removing })
  | _ => s

def onDrain (f : Drain → HintFiles) : HintFiles :=
  match s.drain t with
  | none => s
  | some d => f d

def step : HintEvent → HintFiles
  | .spill replica hint =>
    { s.append (safeName replica) (encodeHintRecord hint) with spilled := (replica, hint) :: s.spilled }
  | .tornSpill replica hint kept => s.append (safeName replica) ((encodeHintRecord hint).take kept)
  | .claim t replica => if (s.drain t).isSome then s else s.claim t replica
  | .openClaimed t ok => s.onDrain t (s.openClaimed t ok)
  | .page t readable =>
    s.onDrain t (fun d =>
      if d.stage = .reading then s.setDrain t (some (d.readPage lossy readable)) else s)
  | .send t ok => s.onDrain t (s.send t ok)
  | .respill t kept => s.onDrain t (s.respill t kept)
  | .giveBack t kept => s.onDrain t (s.giveBack t kept)
  | .remove t => s.onDrain t (fun d => if d.stage = .removing then s.removeDraining t d else s)
  | .crash => { s with drain := fun _ => none }

end HintFiles

section Safety

variable (lossy : Bytes → String)

def Drain.pending (claimed : List Hint) (d : Drain) : List Hint :=
  match d.stage with
  | .claimed => claimed
  | .removing => []
  | _ => d.tasks.flatMap HintTask.hints ++ recordsIn lossy (d.stream.buf ++ d.stream.unread)

namespace HintFiles

variable (s : HintFiles)

def liveRecords (path : String) : List Hint := recordsIn lossy ((s.live path).getD [])

def claimedRecords (path : String) : List Hint := recordsIn lossy ((s.draining path).getD [])

-- A hint that was spilled completely is acknowledged, or stands in the live log, or in the
-- claimed log of a drain that is under way. What is sent was spilled, for that replica.
def Safe : Prop :=
  (∀ p ∈ s.spilled, p ∈ s.acked ∨ p.2 ∈ s.liveRecords lossy (safeName p.1) ∨
    p.2 ∈ s.claimedRecords lossy (safeName p.1) ∧ ∃ t d, s.drain t = some d ∧ d.replica = p.1) ∧
  ∀ p ∈ s.sent, p ∈ s.spilled

def flushers : List Flusher := [.worker, .ticker]

-- No record is appended behind a torn one, no log is shared by two replicas or two drains,
-- no drain meets an error of the file system, and no crash meets a drain.
def Careful : HintEvent → Prop
  | .spill replica hint =>
    hint.Fits ∧ WholeLog lossy ((s.live (safeName replica)).getD []) ∧
      ∀ p ∈ s.spilled, safeName p.1 = safeName replica → p.1 = replica
  | .tornSpill replica hint kept =>
    hint.Fits ∧ WholeLog lossy ((s.live (safeName replica)).getD []) ∧ kept < (encodeHintRecord hint).length
  | .claim _ replica =>
    (∀ t ∈ flushers, ∀ d ∈ s.drain t, d.path ≠ safeName replica) ∧
      ∀ p ∈ s.spilled, safeName p.1 = safeName replica → p.1 = replica
  | .openClaimed _ ok => ok = true
  | .page _ readable => readable = true
  | .respill t kept => kept = none ∧ ∀ d ∈ s.drain t, WholeLog lossy ((s.live d.path).getD [])
  | .giveBack t kept =>
    ∀ d ∈ s.drain t, WholeLog lossy ((s.live d.path).getD []) ∧
      ∃ k ∈ kept, d.stream.buf.length ≤ k.1 ∧ d.stream.unread.length ≤ k.2
  | .crash => ∀ t ∈ flushers, s.drain t = none
  | .send _ _ | .remove _ => True

instance : (e : HintEvent) → Decidable (s.Careful lossy e)
  | .spill _ _ => inferInstanceAs (Decidable (_ ∧ _ ∧ ∀ p ∈ s.spilled, _))
  | .tornSpill _ _ _ => inferInstanceAs (Decidable (_ ∧ _ ∧ _ < _))
  | .claim _ _ => inferInstanceAs (Decidable ((∀ t ∈ flushers, ∀ d ∈ s.drain t, _) ∧ ∀ p ∈ s.spilled, _))
  | .openClaimed _ _ | .page _ _ => inferInstanceAs (Decidable (_ = _))
  | .respill t _ => inferInstanceAs (Decidable (_ ∧ ∀ d ∈ s.drain t, _))
  | .giveBack t kept => inferInstanceAs (Decidable (∀ d ∈ s.drain t, _ ∧ ∃ k ∈ kept, _ ∧ _))
  | .crash => inferInstanceAs (Decidable (∀ t ∈ flushers, _))
  | .send _ _ | .remove _ => isTrue trivial

end HintFiles

end Safety

end Skaidb.Cluster
