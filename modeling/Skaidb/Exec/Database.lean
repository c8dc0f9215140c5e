import Mathlib.Logic.Function.Basic
import Skaidb.Exec.Journal
import Skaidb.Exec.Table
import Skaidb.Storage.Recovery.System

namespace Skaidb.Exec

open Skaidb.Types Skaidb.Storage Skaidb.Base

structure TableDef where
  primaryKey : List String

structure IndexDef where
  table : String
  paths : List String

structure Catalog where
  tables : OrdMap String TableDef
  indexes : OrdMap String IndexDef

def Catalog.default : Catalog := ⟨OrdMap.empty, OrdMap.empty⟩

def Catalog.indexesOn (c : Catalog) (table : String) : List (String × List String) :=
  (c.indexes.entries.filter (fun ix => ix.2.table = table)).map (fun ix => (ix.1, ix.2.paths))

def Catalog.dropTable (c : Catalog) (name : String) : Catalog :=
  ⟨c.tables.erase name, c.indexes.filter (fun ix => ix.2.table ≠ name)⟩

inductive Store where
  | table (name : String)
  | index (name : String)
  deriving DecidableEq

def Catalog.stores (c : Catalog) : List Store :=
  c.tables.entries.map (fun t => .table t.1) ++ c.indexes.entries.map (fun ix => .index ix.1)

structure File (α : Type) where
  contents : α
  synced : Bool

def File.crash {α : Type} (f : File α) (lose : α → α) : File α :=
  if f.synced then f else ⟨lose f.contents, true⟩

-- What the process that has the database open keeps in memory: the catalog and the
-- transaction slot of each connection.
structure Live where
  catalog : Catalog
  txns : Nat → Option TxnWrites

-- A catalog file that cannot be parsed is given by the parser's message.
structure Database where
  opts : EngineOptions
  dirs : Store → Option System
  catalogFile : Option (File (Except String Catalog))
  journalTmp : Option (File Bytes)
  journal : Option (File Bytes)
  live : Option Live

-- The steps statements are made of. Files are renamed and removed atomically and in
-- order, directories removed file by file; the contents of a file reach the disk with
-- its fsync.
inductive Action where
  | engine (store : Store) (op : Op)
  | openDir (store : Store) (wall : UInt64)
  | removeDir (store : Store)
  | writeTmp (bytes : Bytes)
  | syncTmp
  | renameTmp
  | removeJournal
  | saveCatalog (catalog : Catalog)
  | start (catalog : Catalog)
  | setTxn (session : Nat) (txn : Option TxnWrites)
  | setCatalog (catalog : Catalog)

inductive DirFile where
  | wal
  | segment (seq : Nat)
  | table (path : Nat)
  | manifest
  deriving DecidableEq

-- What a crash takes from the files that no fsync has covered: the log records and the
-- journal bytes beyond those kept, and the catalog unless it stays readable. A directory is
-- removed file by file: `unlinked` are those gone when the process dies on the way.
structure Loss where
  kept : Store → Nat
  journal : Nat
  catalog : Option String
  unlinked : List DirFile

def unlink (disk : Disk) : DirFile → Disk
  | .wal => disk.apply .removeWal
  | .segment seq => disk.apply (.removeSegment seq)
  | .table path => disk.apply (.removeTable path)
  | .manifest => { disk with manifest := none }

def unlinkAll (s : System) (files : List DirFile) : System :=
  match s.status with
  | .up _ => s
  | .down disk => { s with status := .down (files.foldl unlink disk) }

variable (db : Database)

namespace Database

def create (opts : EngineOptions) : Database := ⟨opts, fun _ => none, none, none, none, none⟩

def setDir (store : Store) (dir : Option System) : Database :=
  { db with dirs := Function.update db.dirs store dir }

def act : Action → Database
  | .engine store op => db.setDir store ((db.dirs store).map (fun s => s.step (.op op)))
  | .openDir store wall =>
    db.setDir store (some (((db.dirs store).getD (System.init db.opts)).step (.reopen wall)))
  | .removeDir store => db.setDir store none
  | .writeTmp bytes => { db with journalTmp := some ⟨bytes, false⟩ }
  | .syncTmp => { db with journalTmp := db.journalTmp.map (fun f => { f with synced := true }) }
  | .renameTmp => { db with journalTmp := none, journal := db.journalTmp.orElse (fun _ => db.journal) }
  | .removeJournal => { db with journal := none }
  | .saveCatalog catalog => { db with catalogFile := some ⟨.ok catalog, false⟩ }
  | .start catalog => { db with live := some ⟨catalog, fun _ => none⟩ }
  | .setTxn session txn =>
    { db with live := db.live.map (fun l => { l with txns := Function.update l.txns session txn }) }
  | .setCatalog catalog => { db with live := db.live.map (fun l => { l with catalog }) }

def actAll (actions : List Action) : Database := actions.foldl act db

section Crash

variable (during : Option Action) (cut : Nat) (loss : Loss) (store : Store)

-- The call an engine is in when the process dies during an action, and how many of
-- its effects are on disk.
def interrupted : Op × Nat :=
  match during with
  | some (.engine other op) => if other = store then (op, cut) else (.clearReadCache, 0)
  | _ => (.clearReadCache, 0)

def crashEvent : Event :=
  .crash (interrupted during cut store).1 (interrupted during cut store).2 (loss.kept store)

def removing : Bool :=
  match during with
  | some (.removeDir other) => other = store
  | _ => false

def crashDir (s : System) : System :=
  unlinkAll (s.step (crashEvent during cut loss store)) (if removing during store then loss.unlinked else [])

def crash : Database :=
  { db with
    dirs := fun store => (db.dirs store).map (crashDir during cut loss store)
    catalogFile := db.catalogFile.map (fun f => f.crash (fun contents =>
      match loss.catalog with
      | some message => .error message
      | none => contents))
    journalTmp := db.journalTmp.map (fun f => f.crash (fun bytes => bytes.take loss.journal))
    journal := db.journal.map (fun f => f.crash (fun bytes => bytes.take loss.journal))
    live := none }

end Crash

def process (store : Store) : Option Process :=
  match db.dirs store with
  | some ⟨_, .up p, _⟩ => some p
  | _ => none

def nextCommit (store : Store) : Nat :=
  ((db.process store).map (fun p => p.commits.length)).getD 0

def catalog : Catalog := (db.live.map Live.catalog).getD Catalog.default

def hasTable (name : String) : Bool := (db.catalog.tables.get? name).isSome

def txn (session : Nat) : Option TxnWrites := db.live.bind (fun l => l.txns session)

def loadCatalog : Except EngineError Catalog :=
  match db.catalogFile with
  | none => .ok Catalog.default
  | some ⟨.ok catalog, _⟩ => .ok catalog
  | some ⟨.error message, _⟩ => .error (.constraint s!"corrupt catalog: {message}")

def readTxnJournal : Option TxnWrites := db.journal.bind (fun f => Journal.decode f.contents)

end Database

-- The clock at each action of a statement, and the order in which the pending syncs
-- leave their hash map.
structure Env where
  tick : Nat → Tick
  drain : List (Store × Nat) → List (Store × Nat)
  drain_perm : ∀ pending, (drain pending).Perm pending

-- A statement at work: what it has done so far, the latest commit of each engine it has
-- written to, and the commits it leaves to its caller to sync.
structure Work where
  db : Database
  done : List Action
  pending : List (Store × Nat)
  handed : List (Store × Nat)

namespace Work

def ofDatabase : Work := ⟨db, [], [], []⟩

def perform (w : Work) (a : Action) : Work := { w with db := w.db.act a, done := w.done ++ [a] }

variable (env : Env)

def tick (w : Work) : Tick := env.tick w.done.length

def write (w : Work) (store : Store) (sync : Bool) (key : Bytes) (value : VersionValue) : Work :=
  w.perform (.engine store (.write .clock sync (w.tick env).wall (w.tick env).now key value))

def writeDeferred (w : Work) (store : Store) (key : Bytes) (value : VersionValue) : Work :=
  let w' := w.write env store false key value
  { w' with pending := w.pending.filter (fun p => p.1 ≠ store) ++ [(store, w.db.nextCommit store)] }

def get (w : Work) (store : Store) (key : Bytes) : Option Bytes × Work :=
  ((w.db.process store).bind (fun p => (p.engine.get (w.tick env).now key).1),
    w.perform (.engine store (.read key)))

section Indexes

variable (toF64 : Decimal → F64) (w : Work)

section

variable (ix : String × List String) (doc : Document) (rowKey : Bytes)

def indexDel : Work :=
  (entryKeys toF64 ix.2 doc rowKey).foldl (fun w key => w.write env (.index ix.1) true key .delete) w

def indexPut : Work :=
  (entryKeys toF64 ix.2 doc rowKey).foldl (fun w key => w.write env (.index ix.1) true key (.put rowKey)) w

def indexDelDeferred : Work :=
  (entryKeys toF64 ix.2 doc rowKey).foldl (fun w key => w.writeDeferred env (.index ix.1) key .delete) w

def indexPutDeferred : Work :=
  (entryKeys toF64 ix.2 doc rowKey).foldl
    (fun w key => w.writeDeferred env (.index ix.1) key (.put rowKey)) w

end

def indexDelPrevious (table : String) (key : Bytes) : Work :=
  let indexes := w.db.catalog.indexesOn table
  if indexes.isEmpty || !w.db.hasTable table then w
  else
    let (existing, w₁) := w.get env (.table table) key
    match existing.bind decodeDocument with
    | some old => indexes.foldl (fun w ix => w.indexDel env toF64 ix old key) w₁
    | none => w₁

def putRow (table : String) (key : Bytes) (doc : Document) : Option EngineError × Work :=
  let indexes := w.db.catalog.indexesOn table
  let w₁ := w.indexDelPrevious env toF64 table key
  if w₁.db.hasTable table then
    let w₂ := w₁.writeDeferred env (.table table) key (.put (encodeDocument doc))
    (none, indexes.foldl (fun w ix => w.indexPutDeferred env toF64 ix doc key) w₂)
  else (some (.tableNotFound table), w₁)

def deleteRow (table : String) (key : Bytes) (doc : Document) : Option EngineError × Work :=
  let indexes := w.db.catalog.indexesOn table
  if w.db.hasTable table then
    let w₁ := w.writeDeferred env (.table table) key .delete
    (none, indexes.foldl (fun w ix => w.indexDelDeferred env toF64 ix doc key) w₁)
  else (some (.tableNotFound table), w)

def committedDoc (table : String) (key : Bytes) :
    Except EngineError (Option Document) × Work :=
  if w.db.hasTable table then
    let (existing, w₁) := w.get env (.table table) key
    (.ok (existing.bind decodeDocument), w₁)
  else (.error (.tableNotFound table), w)

end Indexes

end Work

end Skaidb.Exec
