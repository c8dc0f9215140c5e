import Skaidb.Base.LastHeld
import Skaidb.Base.Grouping
import Skaidb.Tsdb.Varenc
import Skaidb.Tsdb.Series

namespace Skaidb.Tsdb

open Skaidb.Base

section Chunks

def chunkMaxSamples : Nat := 120

-- A chunk that is being appended to. The compressed stream is taken as the samples in it.
abbrev ChunkBuilder := List Sample

namespace ChunkBuilder

def append (b : ChunkBuilder) (s : Sample) : Result ChunkBuilder :=
  match b.getLast? with
  | none => .ok [s]
  | some last => if s.ts ≤ last.ts then .error (.outOfOrder s.ts last.ts) else .ok (b ++ [s])

def firstTs (b : ChunkBuilder) : Int64 := (b.head?.map Sample.ts).getD 0

def lastTs (b : ChunkBuilder) : Int64 := (b.getLast?.map Sample.ts).getD 0

end ChunkBuilder

structure SealedChunk where
  minTs : Int64
  maxTs : Int64
  count : Nat
  data : List Sample
  deriving DecidableEq, Repr

def sealChunk (b : ChunkBuilder) : SealedChunk := ⟨b.firstTs, b.lastTs, b.length, b⟩

-- Chunks of samples in time order, cut at windows and at the number of samples a chunk takes.
def rechunkFrom (span : Int64) : List Sample → ChunkBuilder → (window : Int64) → Result (List SealedChunk)
  | [], builder, _ => .ok (if builder = [] then [] else [sealChunk builder])
  | s :: rest, builder, window => do
      if builder ≠ [] ∧ (windowOf span s.ts ≠ window ∨ chunkMaxSamples ≤ builder.length) then
        let fresh ← ChunkBuilder.append [] s
        return sealChunk builder :: (← rechunkFrom span rest fresh (windowOf span s.ts))
      else
        rechunkFrom span rest (← builder.append s) (windowOf span s.ts)

def rechunk (samples : List Sample) (span : Int64) : Result (List SealedChunk) :=
  rechunkFrom span samples [] Int64.minValue

end Chunks

section Entries

def oooMaxPerSeries : Nat := 512

structure SeriesEntry where
  labels : Labels
  sealed : List SealedChunk
  openChunk : Option (Int64 × ChunkBuilder)
  ooo : List Sample
  lastTs : Int64
  deriving DecidableEq, Repr

namespace SeriesEntry

def fresh (labels : Labels) : SeriesEntry := ⟨labels, [], none, [], Int64.minValue⟩

variable (e : SeriesEntry)

def sealOpen : SeriesEntry :=
  match e.openChunk with
  | none => e
  | some (_, builder) =>
    if builder = [] then { e with openChunk := none }
    else { e with sealed := e.sealed ++ [sealChunk builder], openChunk := none }

def insertOoo (s : Sample) : List Sample → List Sample
  | [] => [s]
  | x :: xs =>
    if s.ts < x.ts then s :: x :: xs
    else if s.ts = x.ts then s :: xs
    else x :: insertOoo s xs

def chunkFor (window : Int64) : SeriesEntry × ChunkBuilder :=
  match e.openChunk with
  | none => (e.sealOpen, [])
  | some (w, builder) =>
    if w ≠ window ∨ chunkMaxSamples ≤ builder.length then (e.sealOpen, []) else (e, builder)

def append (s : Sample) (span oooWindow : Int64) : Result SeriesEntry :=
  if s.ts ≤ e.lastTs then
    if 0 < oooWindow ∧ saturatingSub e.lastTs oooWindow < s.ts ∧ s.ts < e.lastTs then
      if oooMaxPerSeries ≤ e.ooo.length then .error .oooBufferFull
      else .ok { e with ooo := insertOoo s e.ooo }
    else .error (.outOfOrder s.ts e.lastTs)
  else do
    let window := windowOf span s.ts
    let (e, builder) := e.chunkFor window
    let builder ← builder.append s
    return { e with openChunk := some (window, builder), lastTs := s.ts }

def sealBefore (boundary : Int64) : SeriesEntry :=
  match e.openChunk with
  | some (window, _) => if window < boundary then e.sealOpen else e
  | none => e

def flushable (boundary : Int64) : List SealedChunk :=
  e.sealed.filter (fun c => c.maxTs < boundary)

def due (boundary : Int64) : List Sample :=
  e.ooo.takeWhile (fun s => s.ts < boundary)

def keepFrom (boundary : Int64) : SeriesEntry :=
  { e with
    sealed := e.sealed.filter (fun c => boundary ≤ c.maxTs)
    ooo := e.ooo.drop (e.due boundary).length }

-- What goes to a block when everything before `boundary` is flushed, and what stays.
-- Buffered samples are folded in by decoding, merging and cutting chunks anew.
def takeBefore (boundary span : Int64) : Result (List SealedChunk × SeriesEntry) :=
  let e := e.sealBefore boundary
  if e.due boundary = [] then .ok (e.flushable boundary, e.keepFrom boundary)
  else do
    let samples := settle Sample.ts ((e.flushable boundary).flatMap SealedChunk.data ++ e.due boundary)
    return (← rechunk samples span, e.keepFrom boundary)

def idle : Bool := e.sealed = [] ∧ e.openChunk = none ∧ e.ooo = []

def inRange (t0 t1 : Int64) (samples : List Sample) : List Sample :=
  samples.filter (fun s => t0 ≤ s.ts ∧ s.ts ≤ t1)

def overlapping (t0 t1 : Int64) (chunks : List SealedChunk) : List SealedChunk :=
  chunks.filter (fun c => ¬(c.maxTs < t0 ∨ t1 < c.minTs))

def samples (t0 t1 : Int64) : List Sample :=
  let sealed := (overlapping t0 t1 e.sealed).flatMap (fun c => inRange t0 t1 c.data)
  let out := sealed ++ inRange t0 t1 ((e.openChunk.map Prod.snd).getD [])
  if e.ooo = [] then out else settle Sample.ts (out ++ inRange t0 t1 e.ooo)

end SeriesEntry

end Entries

abbrev FlushedSeries := List (Labels × List SealedChunk)

abbrev Postings := OrdMap Label (List Nat)

structure Head where
  map : OrdMap Labels Nat
  entries : List (Option SeriesEntry)
  live : Nat
  postings : Postings
  maxTs : Int64

namespace Head

def new : Head := ⟨.empty, [], 0, .empty, Int64.minValue⟩

variable (h : Head)

def entry (id : Nat) : Option SeriesEntry := h.entries[id]?.join

def create (labels : Labels) : Head :=
  { h with
    map := h.map.insert labels h.entries.length
    entries := h.entries ++ [some (.fresh labels)]
    live := h.live + 1
    postings := labels.foldl (fun p label => p.extend label [h.entries.length]) h.postings }

-- The id of the series, and whether it is new. A limit of `usize::MAX` is none.
def getOrCreate (labels : Labels) (maxSeries : Option Nat) : Result (Head × Nat × Bool) :=
  match h.map.get? labels with
  | some id => .ok (h, id, false)
  | none =>
    match maxSeries with
    | none => .ok (h.create labels, h.entries.length, true)
    | some limit =>
      if limit ≤ h.live then .error (.seriesLimit limit)
      else .ok (h.create labels, h.entries.length, true)

def append (h : Head) (id : Nat) (s : Sample) (span oooWindow : Int64) : Result Head :=
  match h.entry id with
  | none => .error (.invalid s!"unknown series id {id}")
  | some e => do
      let e' ← e.append s span oooWindow
      return { h with
        entries := h.entries.set id (some e')
        -- An out-of-order sample is below the series' newest one.
        maxTs := if e.lastTs < s.ts ∧ h.maxTs < s.ts then s.ts else h.maxTs }

def takeEntries (boundary span : Int64) :
    (id : Nat) → List (Option SeriesEntry) →
      Result (FlushedSeries × List (Option SeriesEntry) × List (Nat × Labels))
  | _, [] => .ok ([], [], [])
  | id, none :: rest => do
      let (out, entries, gone) ← takeEntries boundary span (id + 1) rest
      return (out, none :: entries, gone)
  | id, some e :: rest => do
      let (flushed, e') ← e.takeBefore boundary span
      let (out, entries, gone) ← takeEntries boundary span (id + 1) rest
      let out := if flushed = [] then out else (e.labels, flushed) :: out
      if e'.idle then return (out, none :: entries, (id, e.labels) :: gone)
      else return (out, some e' :: entries, gone)

def unpost (p : Postings) (id : Nat) (labels : Labels) : Postings :=
  labels.foldl
    (fun p label =>
      match p.get? label with
      | none => p
      | some ids => p.insert label (ids.filter (· ≠ id)))
    p

-- Series left with no data are dropped; their ids are not used again.
def takeBefore (h : Head) (boundary span : Int64) : Result (FlushedSeries × Head) := do
  let (out, entries, gone) ← takeEntries boundary span 0 h.entries
  return (out, { h with
    map := gone.foldl (fun m g => m.erase g.2) h.map
    entries := entries
    live := h.live - gone.length
    postings := gone.foldl (fun p g => unpost p g.1 g.2) h.postings })

def liveSeries : List (Nat × Labels) :=
  h.entries.zipIdx.filterMap (fun e => e.1.map (fun s => (e.2, s.labels)))

def samples (h : Head) (id : Nat) (t0 t1 : Int64) : Result (List Sample) :=
  match h.entry id with
  | none => .error (.invalid s!"unknown series id {id}")
  | some e => .ok (e.samples t0 t1)

def posting (label : Label) : List Nat := (h.postings.get? label).getD []

def postingRegex (key : String) (accepts : String → Bool) : List Nat :=
  (h.postings.entries.filter (fun p => p.1.key = key ∧ accepts p.1.value)).flatMap Prod.snd

def labelsOf (id : Nat) : Option Labels := (h.entry id).map SeriesEntry.labels

def seriesMatching (keep : Labels → Bool) : List (Nat × Labels) :=
  h.liveSeries.filter (fun s => keep s.2)

end Head

end Skaidb.Tsdb
