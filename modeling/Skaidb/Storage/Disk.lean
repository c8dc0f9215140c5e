import Skaidb.Storage.Memtable

namespace Skaidb.Storage

open Skaidb.Base

structure WalRecord where
  hlc : Hlc
  key : Bytes
  op : VersionValue
  deriving DecidableEq, Repr

structure WalFile where
  records : List WalRecord
  durable : Nat

structure SsTable where
  path : Nat
  entries : OrdMap Bytes Version
  deriving DecidableEq

def SsTable.get (t : SsTable) (key : Bytes) : Option Version := t.entries.get? key

def SsTable.len (t : SsTable) : Nat := t.entries.entries.length

-- The files of one engine directory. Sealed segments are kept by number, as
-- `list_segments` lists them.
structure Disk where
  wal : Option WalFile
  segments : OrdMap Nat (List WalRecord)
  tables : OrdMap Nat (OrdMap Bytes Version)
  manifest : Option (List (Nat × Nat))

-- The file effects of the engine. Each one is atomic, and they reach the disk in order. Only
-- log data waits for an fsync: tables and the manifest are synced before they are used.
inductive Effect where
  | openWal
  | createWal
  | removeWal
  | appendWal (record : WalRecord)
  | syncWal
  | renameWal (seq : Nat)
  | removeSegment (seq : Nat)
  | writeTable (table : SsTable)
  | removeTable (path : Nat)
  | removeTables
  | writeManifest (lines : List (Nat × Nat))
  deriving DecidableEq

namespace Disk

def empty : Disk := ⟨none, OrdMap.empty, OrdMap.empty, none⟩

variable (disk : Disk)

def apply : Effect → Disk
  | .openWal => { disk with wal := some (disk.wal.getD ⟨[], 0⟩) }
  | .createWal => { disk with wal := some ⟨[], 0⟩ }
  | .removeWal => { disk with wal := none }
  | .appendWal record =>
    { disk with wal := disk.wal.map (fun f => { f with records := f.records ++ [record] }) }
  | .syncWal => { disk with wal := disk.wal.map (fun f => { f with durable := f.records.length }) }
  | .renameWal seq =>
    match disk.wal with
    | none => disk
    | some f => { disk with wal := none, segments := disk.segments.insert seq f.records }
  | .removeSegment seq => { disk with segments := disk.segments.erase seq }
  | .writeTable table => { disk with tables := disk.tables.insert table.path table.entries }
  | .removeTable path => { disk with tables := disk.tables.erase path }
  | .removeTables => { disk with tables := OrdMap.empty, manifest := none }
  | .writeManifest lines => { disk with manifest := some lines }

def applyAll (effects : List Effect) : Disk := effects.foldl apply disk

-- What a crash leaves: log records past the last fsync may be lost from the end.
def crash (kept : Nat) : Disk :=
  { disk with wal := disk.wal.map (fun f => { f with records := f.records.take (max f.durable kept) }) }

def listSegments : List Nat := disk.segments.entries.map Prod.fst

def readTable (path : Nat) : Option SsTable :=
  (disk.tables.get? path).map (fun entries => ⟨path, entries⟩)

@[simp] theorem applyAll_nil : disk.applyAll [] = disk := rfl

theorem applyAll_append : disk.applyAll (xs ++ ys) = (disk.applyAll xs).applyAll ys :=
  List.foldl_append

@[simp] theorem applyAll_concat (xs : List Effect) (e : Effect) :
    disk.applyAll (xs ++ [e]) = (disk.applyAll xs).apply e := by
  rw [applyAll_append]
  rfl

end Disk

def Memtable.replay (records : List WalRecord) : Memtable :=
  records.foldl (fun m r => m.insert r.key r.hlc r.op) Memtable.new

end Skaidb.Storage
