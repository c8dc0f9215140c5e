import Skaidb.Exec.Basics
import Skaidb.Storage.Engine.Reads

namespace Skaidb.Exec

open Skaidb.Types Skaidb.Storage

structure Tick where
  wall : UInt64
  now : UInt64

-- The clock readings of one replicated apply: at the read and the write of the row,
-- and at the `i`-th entry removed from or added to each index.
structure Ticks where
  read : UInt64
  row : Tick
  del : String → Nat → Tick
  put : String → Nat → Tick

structure Index where
  name : String
  paths : List String
  store : Process

structure Table where
  rows : Process
  indexes : List Index

def Table.create (opts indexOpts : EngineOptions) (wall : UInt64)
    (indexes : List (String × List String)) : Table :=
  ⟨.fresh opts wall, indexes.map (fun ix => ⟨ix.1, ix.2, .fresh indexOpts wall⟩)⟩

section Entries

variable (toF64 : Decimal → F64)

-- Entries are written one after the other, stamped by the index's own clock.
def writeEntries (value : VersionValue) (ticks : Nat → Tick) : Nat → List Bytes → Process → Process
  | _, [], store => store
  | i, key :: keys, store =>
    writeEntries value ticks (i + 1) keys
      (store.step (.write .clock true (ticks i).wall (ticks i).now key value))

def Index.put (ix : Index) (ticks : Nat → Tick) (doc : Document) (rowKey : Bytes) : Index :=
  { ix with store := writeEntries (.put rowKey) ticks 0 (entryKeys toF64 ix.paths doc rowKey) ix.store }

def Index.del (ix : Index) (ticks : Nat → Tick) (doc : Document) (rowKey : Bytes) : Index :=
  { ix with store := writeEntries .delete ticks 0 (entryKeys toF64 ix.paths doc rowKey) ix.store }

variable (t : Table)

namespace Table

def readRow (now : UInt64) (key : Bytes) : Option Document × Table :=
  ((t.rows.engine.get now key).1.bind decodeDocument, { t with rows := t.rows.step (.read key) })

def indexDelAll (ticks : Ticks) (doc : Document) (key : Bytes) : Table :=
  { t with indexes := t.indexes.map (fun ix => ix.del toF64 (ticks.del ix.name) doc key) }

def indexPutAll (ticks : Ticks) (doc : Document) (key : Bytes) : Table :=
  { t with indexes := t.indexes.map (fun ix => ix.put toF64 (ticks.put ix.name) doc key) }

def indexDelPrevious (ticks : Ticks) (key : Bytes) : Table :=
  if t.indexes.isEmpty then t
  else match t.readRow ticks.read key with
    | (some old, t) => t.indexDelAll toF64 ticks old key
    | (none, t) => t

def writeRow (tick : Tick) (key : Bytes) (value : VersionValue) (hlc : Hlc) : Table :=
  { t with rows := t.rows.step (.write (.given hlc) true tick.wall tick.now key value) }

-- Without indexes the row is not decoded.
def applyPut (ticks : Ticks) (key bytes : Bytes) (hlc : Hlc) : Except EngineError Table :=
  if t.indexes.isEmpty then .ok (t.writeRow ticks.row key (.put bytes) hlc)
  else match Value.decode bytes with
    | .error e => .error (.constraint s!"corrupt replicated row: {e.display}")
    | .ok (.document doc) =>
      .ok (((t.indexDelPrevious toF64 ticks key).writeRow ticks.row key (.put bytes) hlc).indexPutAll
        toF64 ticks doc key)
    | .ok _ => .error (.constraint "replicated row is not a document")

-- The row is read first, so that its entries can be removed.
def applyDelete (ticks : Ticks) (key : Bytes) (hlc : Hlc) : Table :=
  match t.readRow ticks.read key with
  | (some doc, t) => (t.writeRow ticks.row key .delete hlc).indexDelAll toF64 ticks doc key
  | (none, t) => t.writeRow ticks.row key .delete hlc

end Table

inductive Apply where
  | put (ticks : Ticks) (key bytes : Bytes) (hlc : Hlc)
  | delete (ticks : Ticks) (key : Bytes) (hlc : Hlc)
  | maintainRows (op : Op)
  | maintainIndex (name : String) (op : Op)

-- A failed apply leaves the table as it was. A worker writes nothing.
def Table.step : Apply → Table
  | .put ticks key bytes hlc =>
    match t.applyPut toF64 ticks key bytes hlc with
    | .ok t' => t'
    | .error _ => t
  | .delete ticks key hlc => t.applyDelete toF64 ticks key hlc
  | .maintainRows op => if op.isWrite then t else { t with rows := t.rows.step op }
  | .maintainIndex name op =>
    if op.isWrite then t
    else { t with indexes := t.indexes.map (fun ix =>
      if ix.name = name then { ix with store := ix.store.step op } else ix) }

def Table.run (applies : List Apply) : Table := applies.foldl (Table.step toF64) t

end Entries

end Skaidb.Exec
