import Skaidb.Tsdb.Varenc
import Skaidb.Tsdb.Series

namespace Skaidb.Tsdb

open Skaidb.Base Skaidb.Types

section Records

inductive Record where
  | series (id : Nat) (labels : Labels)
  | samples (batch : List (Nat × Sample))
  deriving DecidableEq, Repr

def recSeries : UInt8 := 1

def recSamples : UInt8 := 2

def putLabel (label : Label) : Bytes := putBytes (utf8 label.key) ++ putBytes (utf8 label.value)

def putSample (s : Nat × Sample) : Bytes :=
  putUvarint s.1 ++ (putVarint s.2.ts ++ leBytes 8 s.2.value.bits.toNat)

def Record.encode : Record → Bytes
  | .series id labels =>
    recSeries :: (putUvarint id ++ (putUvarint labels.length ++ labels.flatMap putLabel))
  | .samples batch => recSamples :: (putUvarint batch.length ++ batch.flatMap putSample)

def decodeLabel : Dec Label := do
  let k ← Dec.string
  let v ← Dec.string
  return ⟨k, v⟩

def decodeSample : Dec (Nat × Sample) := do
  let id ← Dec.uvarint
  let ts ← Dec.varint
  let value ← Dec.u64Le
  return (id, ⟨ts, ⟨value⟩⟩)

def decodeRecord : Dec Record := do
  let tag ← Dec.u8
  if tag = recSeries then
    let id ← Dec.uvarint
    let n ← Dec.uvarint
    return .series id (← Reader.many decodeLabel n)
  else if tag = recSamples then
    let n ← Dec.uvarint
    return .samples (← Reader.many decodeSample n)
  else
    Reader.fail (.corrupt s!"unknown wal record {tag}")

-- Bytes after the record are not looked at.
def Record.decode (payload : Bytes) : Result Record :=
  (decodeRecord payload).map Prod.fst

end Records

section Frames

def crcTable (i : UInt32) : UInt32 :=
  (List.range 8).foldl
    (fun c _ => if c &&& 1 = 1 then (0xEDB88320 : UInt32) ^^^ (c >>> 1) else c >>> 1) i

def crc32 (data : Bytes) : UInt32 :=
  ~~~(data.foldl (fun crc b => crcTable ((crc ^^^ b.toUInt32) &&& 0xff) ^^^ (crc >>> 8)) 0xFFFFFFFF)

example : crc32 [0x31, 0x32, 0x33, 0x34, 0x35, 0x36, 0x37, 0x38, 0x39] = 0xCBF43926 := by
  decide +kernel

-- The length is cast to `u32`, so one of 2^32 or more wraps.
def frame (payload : Bytes) : Bytes :=
  leBytes 4 payload.length ++ (leBytes 4 (crc32 payload).toNat ++ payload)

def Record.frame (r : Record) : Bytes := Tsdb.frame r.encode

def readFrame (data : Bytes) : Option Bytes :=
  let len := leNat (data.take 4)
  let payload := (data.drop 8).take len
  if 8 + len ≤ data.length ∧ leNat ((data.drop 4).take 4) = (crc32 payload).toNat then some payload
  else none

-- The records of one segment, and whether a torn or corrupt one ends the whole replay.
-- Fewer than eight bytes at the end are not taken for a record.
def replaySegment : (fuel : Nat) → Bytes → List Record × Bool
  | 0, _ => ([], false)
  | fuel + 1, data =>
    if data.length < 8 then ([], false)
    else
      match readFrame data with
      | none => ([], true)
      | some payload =>
        match Record.decode payload with
        | .error _ => ([], true)
        | .ok record =>
          let (records, broke) := replaySegment fuel (data.drop (8 + payload.length))
          (record :: records, broke)

end Frames

abbrev Segments := List (Nat × Bytes)

def replay : Segments → List (Nat × Record)
  | [] => []
  | (seq, data) :: segments =>
    let (records, broke) := replaySegment data.length data
    records.map (fun r => (seq, r)) ++ if broke then [] else replay segments

-- The writer of the newest segment. What is appended stays in `buffered` until a sync.
structure Wal where
  seq : Nat
  buffered : Bytes
  segBytes : Nat
  deriving DecidableEq, Repr

def segmentMaxBytes : Nat := 64 * 1024 * 1024

variable (segments : Segments)

def Wal.nextSeq : Nat :=
  match segments.getLast? with
  | none => 1
  | some s => s.1 + 1

-- A new segment after the highest one there is; none is written to again.
def Wal.open : Segments × Wal :=
  (segments ++ [(Wal.nextSeq segments, [])], ⟨Wal.nextSeq segments, [], 0⟩)

namespace Wal

variable (w : Wal)

def sync (segments : Segments) : Segments × Wal :=
  (segments.map (fun s => if s.1 = w.seq then (s.1, s.2 ++ w.buffered) else s),
    { w with buffered := [] })

def roll (segments : Segments) : Segments × Wal :=
  let (segments, w) := w.sync segments
  (segments ++ [(w.seq + 1, [])], ⟨w.seq + 1, [], 0⟩)

def append (segments : Segments) (record : Record) : Segments × Wal :=
  let w := { w with
    buffered := w.buffered ++ record.frame
    segBytes := w.segBytes + (8 + record.encode.length) }
  if segmentMaxBytes ≤ w.segBytes then w.roll segments else (segments, w)

def beginCheckpoint (segments : Segments) : Segments × Wal × Nat :=
  let (segments, w) := w.roll segments
  (segments, w, w.seq)

-- The segments older than `seq` go one after the other, the oldest first; a failure
-- ends this after `done` of them.
def truncateBefore (seq done : Nat) : Segments :=
  segments.drop (min done (segments.takeWhile (fun s => s.1 < seq)).length)

-- The process ends. Of what was not synced, any part may have reached the file, the last
-- piece of it torn.
def crash (segments : Segments) (tail : Bytes) : Segments :=
  segments.map (fun s => if s.1 = w.seq then (s.1, s.2 ++ tail) else s)

end Wal

end Skaidb.Tsdb
