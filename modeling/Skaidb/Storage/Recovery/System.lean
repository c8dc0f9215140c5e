import Skaidb.Base.Represents
import Skaidb.Storage.Engine.Run

namespace Skaidb.Storage

open Skaidb.Base

def WalRecord.write (r : WalRecord) : Write Bytes Hlc VersionValue := (r.key, r.hlc, r.op)

-- What has been written to one engine directory: the records its logs received,
-- oldest first and without those a crash has lost, and how many of them an
-- fsync has covered. Positions in `records` name the writes behind the commits
-- handed out since the last open, and the writes whose commit was synced.
structure History where
  records : List WalRecord
  durable : Nat
  commits : List Nat
  synced : List Nat

namespace History

def start : History := ⟨[], 0, [], []⟩

variable (h : History)

def apply : Effect → History
  | .appendWal record => { h with records := h.records ++ [record] }
  | .syncWal => { h with durable := h.records.length }
  | _ => h

def applyAll (effects : List Effect) : History := effects.foldl apply h

-- A call has returned. `before` is the number of records at the call.
def acknowledge (before : Nat) : Op → History
  | .write _ sync _ _ _ _ =>
    { h with
      commits := h.commits ++ [before]
      synced := h.synced ++ if sync then [before] else [] }
  | .sync i => { h with synced := h.synced ++ (h.commits[i]?).toList }
  | _ => h

def crash (lost : Nat) : History :=
  { h with records := h.records.take (h.records.length - lost), commits := [] }

def writes : List (Write Bytes Hlc VersionValue) :=
  h.records.map WalRecord.write

end History

def Disk.lost (disk : Disk) (kept : Nat) : Nat :=
  (disk.wal.map (fun f => f.records.length - max f.durable kept)).getD 0

inductive Event where
  | op (op : Op)
  -- A crash during `op`, after the first `cut` of its effects.
  | crash (op : Op) (cut kept : Nat)
  | reopen (wall : UInt64)
  deriving DecidableEq

inductive Status where
  | up (p : Process)
  | down (disk : Disk)

-- One engine directory with the process that has it open, if any.
structure System where
  opts : EngineOptions
  status : Status
  history : History

variable (s : System)

namespace System

def init (opts : EngineOptions) : System := ⟨opts, .down Disk.empty, .start⟩

def step (event : Event) : System :=
  match event, s.status with
  | .op op, .up p =>
    { s with
      status := .up (p.step op)
      history := (s.history.applyAll (p.exec op).2).acknowledge s.history.records.length op }
  | .crash op cut kept, .up p =>
    let effects := (p.exec op).2.take cut
    let disk := p.disk.applyAll effects
    { s with
      status := .down (disk.crash kept)
      history := (s.history.applyAll effects).crash (disk.lost kept) }
  | .reopen wall, .down disk =>
    match openWithOptions s.opts disk wall with
    | none => s
    | some session => { s with status := .up (.ofSession session) }
  | _, _ => s

def run (events : List Event) : System := events.foldl step s

end System

def Op.seals (e : Engine) : Op → Bool
  | .freeze => true
  | .flush _ => !e.mem.isEmpty
  | .write stamping _ wall _ key value =>
    e.opts.flushThresholdBytes ≤
      (e.mem.insert key (Session.stamp e.clock wall stamping) value).approxBytes
  | _ => false

def SealsAbove (p : Process) (op : Op) : Prop :=
  op.seals p.engine = true → ∀ n ∈ p.disk.listSegments, n < p.engine.nextWalSeq
deriving Decidable

def System.Safe (event : Event) : Prop :=
  match event, s.status with
  | .op op, .up p | .crash op _ _, .up p => SealsAbove p op
  | _, _ => True

instance (s : System) (event : Event) : Decidable (s.Safe event) :=
  match event, s with
  | .op op, ⟨_, .up p, _⟩ | .crash op _ _, ⟨_, .up p, _⟩ => inferInstanceAs (Decidable (SealsAbove p op))
  | .reopen _, ⟨_, .up _, _⟩ | .op _, ⟨_, .down _, _⟩ | .crash _ _ _, ⟨_, .down _, _⟩
  | .reopen _, ⟨_, .down _, _⟩ => isTrue trivial

def System.reopened (wall : UInt64) : Option Engine :=
  match s.status with
  | .up _ => none
  | .down disk => (openWithOptions s.opts disk wall).map Session.engine

def System.isDown : Bool :=
  match s.status with
  | .up _ => false
  | .down _ => true

end Skaidb.Storage
