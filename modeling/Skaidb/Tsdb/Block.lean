import Skaidb.Tsdb.Head

namespace Skaidb.Tsdb

open Skaidb.Base

section Matchers

inductive Matcher where
  | eq (key value : String)
  | ne (key value : String)
  | re (key : String) (isMatch : String → Bool)
  | notRe (key : String) (isMatch : String → Bool)

def labelValue (labels : Labels) (key : String) : String :=
  ((labels.find? (fun l => l.key = key)).map Label.value).getD ""

def Matcher.accepts (m : Matcher) (labels : Labels) : Bool :=
  match m with
  | .eq k v => labelValue labels k = v
  | .ne k v => labelValue labels k ≠ v
  | .re k r => r (labelValue labels k)
  | .notRe k r => !r (labelValue labels k)

def matchesAll (matchers : List Matcher) (labels : Labels) : Bool :=
  matchers.all (fun m => m.accepts labels)

section

variable {ι : Type} [LinearOrder ι]

-- The smallest posting of an equality with a value; an empty one matches a missing label too.
def smallestPosting (posting : Label → List ι) (best : Option (List ι)) : Matcher → Option (List ι)
  | .eq k v =>
    if v = "" then best
    else
      match best with
      | none => some (posting ⟨k, v⟩)
      | some b => if (posting ⟨k, v⟩).length < b.length then some (posting ⟨k, v⟩) else some b
  | _ => best

-- Candidate series from a postings index; `none` when no matcher can restrict.
def postingsCandidates (matchers : List Matcher) (posting : Label → List ι)
    (postingRegex : String → (String → Bool) → List ι) : Option (List ι) :=
  let best := matchers.foldl (smallestPosting posting) none
  let byRegex := matchers.findSome? (fun m =>
    match m with
    | .re k r => if r "" then none else some (postingRegex k r)
    | _ => none)
  (best.or byRegex).map (settle id)

end

end Matchers

-- An immutable block: its chunks per series, sorted by labels, and what its meta file says.
structure Block where
  seq : Nat
  minTs : Int64
  maxTs : Int64
  samples : Nat
  level : Nat
  series : FlushedSeries
  deriving DecidableEq, Repr

def writeBlock (seq level : Nat) (series : FlushedSeries) : Block :=
  let chunks := series.flatMap Prod.snd
  { seq := seq
    minTs := chunks.foldl (fun t c => min t c.minTs) Int64.maxValue
    maxTs := chunks.foldl (fun t c => max t c.maxTs) Int64.minValue
    samples := (chunks.map SealedChunk.count).sum
    level := level
    series := sortByKey Prod.fst series }

namespace Block

-- `build_postings` casts the positions to u32: a block has at most 2^32 series.
def postings (b : Block) : Postings :=
  .gather (b.series.zipIdx.flatMap (fun s => s.1.1.map (fun label => (label, [s.2]))))

def readSeries (s : Labels × List SealedChunk) (t0 t1 : Int64) : Option (Labels × List Sample) :=
  let samples := (SeriesEntry.overlapping t0 t1 s.2).flatMap (fun c => SeriesEntry.inRange t0 t1 c.data)
  if samples = [] then none else some (s.1, samples)

-- The matchers are checked on each series, also on a candidate.
def readMatching (matchers : List Matcher) (t0 t1 : Int64) (s : Labels × List SealedChunk) :
    Option (Labels × List Sample) :=
  if matchesAll matchers s.1 then readSeries s t0 t1 else none

def queryMatchers (b : Block) (matchers : List Matcher) (t0 t1 : Int64) : List (Labels × List Sample) :=
  if t1 < b.minTs ∨ b.maxTs < t0 then []
  else
    let candidates := postingsCandidates matchers
      (fun label => (b.postings.get? label).getD [])
      (fun k r => (b.postings.entries.filter (fun p => p.1.key = k ∧ r p.1.value)).flatMap Prod.snd)
    match candidates with
    | some candidates => candidates.filterMap (fun i => b.series[i]?.bind (readMatching matchers t0 t1))
    | none => b.series.filterMap (readMatching matchers t0 t1)

end Block

def blockOrder (b : Block) : Int64 ×ₗ Nat := toLex (b.minTs, b.seq)

def sortBlocks (blocks : List Block) : List Block := sortByKey blockOrder blocks

end Skaidb.Tsdb
