import Skaidb.Tsdb.Block

namespace Skaidb.Tsdb

open Skaidb.Base

section Plan

def clamp (x : Int) : Int64 := Int64.ofInt (max Int64.minValue.toInt (min Int64.maxValue.toInt x))

def tierSpan (span : Int64) (level : Nat) : Int64 := clamp (span.toInt * (clamp (4 ^ level)).toInt)

def fitsWindow (target start : Int64) (b : Block) : Bool := b.maxTs < windowOf target start + target

-- One group of blocks of this level whose union fits one window, with their positions.
-- Blocks of other levels in between are passed over.
def planLevel (target : Int64) (level : Nat) :
    List (Block × Nat) → (group : List (Block × Nat)) → Option (List Nat)
  | [], group => if 2 ≤ group.length then some (group.map Prod.snd) else none
  | (b, i) :: rest, group =>
    if b.level ≠ level then planLevel target level rest group
    else
      let start := (group.head?.map (fun f => f.1.minTs)).getD b.minTs
      if fitsWindow target start b then planLevel target level rest (group ++ [(b, i)])
      else if 2 ≤ group.length then some (group.map Prod.snd)
      else planLevel target level rest (if fitsWindow target b.minTs b then [(b, i)] else [])

def plan (blocks : List Block) (span : Int64) : Option (List Nat) :=
  (List.range 8).findSome? (fun level => planLevel (tierSpan span (level + 1)) level blocks.zipIdx [])

-- Level-0 blocks that never fit an aligned window of the next tier.
def planWideFrom (t1 : Int64) (maxInputs maxSamples : Nat) :
    List (Block × Nat) → (group : List Nat) → (samples : Nat) → List Nat
  | [], group, _ => group
  | (b, i) :: rest, group, samples =>
    if b.level = 0 ∧ ¬fitsWindow t1 b.minTs b then
      if maxInputs ≤ group.length + 1 ∨ maxSamples ≤ samples + b.samples then group ++ [i]
      else planWideFrom t1 maxInputs maxSamples rest (group ++ [i]) (samples + b.samples)
    else planWideFrom t1 maxInputs maxSamples rest group samples

def planWide (blocks : List Block) (span : Int64) (maxInputs maxSamples : Nat) : Option (List Nat) :=
  let group := planWideFrom (tierSpan span 1) maxInputs maxSamples blocks.zipIdx [] 0
  if group = [] then none else some group

end Plan

section Merge

def addSeries (labels : Labels) (chunks : List SealedChunk) : FlushedSeries → FlushedSeries
  | [] => [(labels, chunks)]
  | (l, cs) :: rest => if l = labels then (l, cs ++ chunks) :: rest else (l, cs) :: addSeries labels chunks rest

def concatSeries (inputs : List Block) : FlushedSeries :=
  (inputs.flatMap Block.series).foldl (fun merged s => addSeries s.1 s.2 merged) []

def overlaps : List SealedChunk → Bool
  | a :: b :: rest => b.minTs ≤ a.maxTs || overlaps (b :: rest)
  | _ => false

-- Chunks that overlap in time are decoded, deduplicated and cut anew; others are kept.
def refold (chunks : List SealedChunk) : Result (List SealedChunk) :=
  if overlaps chunks then rechunk (settle Sample.ts (chunks.flatMap SealedChunk.data)) Int64.maxValue
  else .ok chunks

def mergeBlocks (seq : Nat) (inputs : List Block) : Result Block := do
  let level := (inputs.map Block.level).foldl max 0 + 1
  let merged ← (concatSeries inputs).mapM (fun s => do return (s.1, ← refold s.2))
  return writeBlock seq level merged

end Merge

section WideFold

def blockSamples (b : Block) : List (Labels × Sample) :=
  b.series.flatMap (fun s => (s.2.flatMap SealedChunk.data).map (fun x => (s.1, x)))

-- The samples by window, and in a window by series: sorted, deduplicated and cut anew.
def wideFoldCollect (inputs : List Block) (span : Int64) : Result (List (Int64 × FlushedSeries)) :=
  let windows := OrdMap.gather
    ((inputs.flatMap blockSamples).map (fun s => (windowOf span s.2.ts, [s])))
  windows.entries.mapM (fun w => do
    let series := OrdMap.gather (w.2.map (fun s => (s.1, [s.2])))
    let rebuilt ← series.entries.mapM (fun s => do
      return (s.1, ← rechunk (settle Sample.ts s.2) span))
    return (w.1, rebuilt))

end WideFold

def dropExpired (blocks : List Block) (cutoff : Int64) : List Block :=
  blocks.filter (fun b => cutoff ≤ b.maxTs)

end Skaidb.Tsdb
