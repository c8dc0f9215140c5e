import Skaidb.Tsdb.Store

namespace Skaidb.Tsdb

open Skaidb.Base

abbrev Rows := List (Labels × Sample)

-- The calls that change a store. `overBudget` is what the byte budget says of the head.
inductive Call where
  | appendBatch (rows : Rows) (overBudget : Bool)
  | flush
  | mergeSamples (rows : Rows)
  deriving DecidableEq

def Call.rows : Call → Rows
  | .appendBatch rows _ => rows
  | .flush => []
  | .mergeSamples rows => rows

variable (s : Store)

namespace Store

def start (clock : List Nat) : Store := { s with past := [], clock := clock }

def call (o : TsdbOptions) : Call → Store
  | .appendBatch rows overBudget => (s.appendBatchWithFlush o rows overBudget).1
  | .flush => (s.flush o).1
  | .mergeSamples rows => (s.mergeSamples o rows).1

def filesAt (k : Nat) : Files := (s.past[k]?).getD s.files

def countedRows (o : TsdbOptions) : Rows → Store → Batch → Rows
  | [], _, _ => []
  | (labels, x) :: rows, s, batch =>
    match s.appendRow o batch labels x with
    | (_, .error _) => []
    | (s, .ok batch') =>
      (if batch.result.appended < batch'.result.appended then [(labels, x)] else []) ++
        countedRows o rows s batch'

def counted (o : TsdbOptions) : Call → Rows
  | .appendBatch rows overBudget =>
    match (s.appendBatchWithFlush o rows overBudget).2 with
    | .ok _ => countedRows o rows s .empty
    | .error _ => []
  | _ => []

end Store

inductive Event where
  | open
  | call (c : Call) (clock : List Nat)
  -- The process ends inside a call, after the first `k` of its writes and with the first `n`
  -- of the log records it has not synced.
  | cut (c : Call) (clock : List Nat) (k n : Nat) (torn : Bool)
  | stop (n : Nat) (torn : Bool)
  deriving DecidableEq

inductive Process where
  | down (disk : Disk)
  | up (s : Store)

-- A directory with the process that has it open, if any; the rows that any call was given;
-- and those that were reported as appended.
structure System where
  process : Process
  ingested : Rows
  appended : Rows

variable (o : TsdbOptions)

namespace System

def init : System := ⟨.down ⟨[], []⟩, [], []⟩

def step (y : System) (event : Event) : System :=
  match event, y.process with
  | .open, .down disk =>
    match Store.open o disk with
    | .ok s => { y with process := .up s }
    | .error _ => y
  | .call c clock, .up s =>
    { process := .up ((s.start clock).call o c)
      ingested := y.ingested ++ c.rows
      appended := y.appended ++ (s.start clock).counted o c }
  | .cut c clock k n torn, .up s =>
    { y with
      process := .down ((((s.start clock).call o c).filesAt k).crash n torn)
      ingested := y.ingested ++ c.rows }
  | .stop n torn, .up s => { y with process := .down (s.files.crash n torn) }
  | _, _ => y

def run (events : List Event) : System := events.foldl (step o) init

def opened (events : List Event) : Option Store :=
  match (run o events).process with
  | .down _ => none
  | .up s => some s

def answer : Option (List (Labels × List Sample)) :=
  (s.query [] Int64.minValue Int64.maxValue).toOption

end System

end Skaidb.Tsdb
