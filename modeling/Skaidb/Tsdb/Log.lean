import Skaidb.Tsdb.Wal.Replay

namespace Skaidb.Tsdb

-- The write-ahead log as records: what replay can read of each segment, and whether it
-- breaks off behind that.
structure LogSegment where
  seq : Nat
  records : List Record
  torn : Bool

def replayed : List LogSegment → List Record
  | [] => []
  | g :: segments => g.records ++ if g.torn then [] else replayed segments

-- The log of a running process; `buffered` is what it has appended since the last sync.
structure Log where
  segments : List LogSegment
  seq : Nat
  buffered : List Record
  segBytes : Nat

namespace Log

def nextSeq (segments : List LogSegment) : Nat :=
  match segments.getLast? with
  | none => 1
  | some g => g.seq + 1

def newSegment (segments : List LogSegment) (seq : Nat) : Log := ⟨segments ++ [⟨seq, [], false⟩], seq, [], 0⟩

variable (l : Log)

def buffer (r : Record) : Log :=
  { l with buffered := l.buffered ++ [r], segBytes := l.segBytes + (8 + r.encode.length) }

-- The newest segment, the writer's own, takes these records at its end.
def extendLast (records : List Record) (torn : Bool) : List LogSegment → List LogSegment
  | [] => []
  | [g] => [{ g with records := g.records ++ records, torn := torn }]
  | g :: g' :: rest => g :: extendLast records torn (g' :: rest)

def sync : Log :=
  { l with segments := extendLast l.buffered false l.segments, buffered := [] }

def full : Bool := segmentMaxBytes ≤ l.segBytes

def removeOldest : Log := { l with segments := l.segments.tail }

-- Of what was not synced `survived` reached the disk whole, perhaps with a torn piece behind.
def crash (survived : List Record) (torn : Bool) : List LogSegment :=
  extendLast survived torn l.segments

end Log

def Log.open (segments : List LogSegment) : Log := Log.newSegment segments (Log.nextSeq segments)

end Skaidb.Tsdb
