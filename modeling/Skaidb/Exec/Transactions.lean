import Skaidb.Exec.Database

namespace Skaidb.Exec

open Skaidb.Types Skaidb.Storage Skaidb.Base

inductive RowOp where
  | put (key : Bytes) (doc : Document)
  | delete (key : Bytes) (doc : Document)

inductive Statement where
  | begin
  | commit
  | rollback
  | write (table : String) (ops : List RowOp)
  | createTable (name : String) (primaryKey : List String) (ifNotExists : Bool)
  | dropTable (name : String) (ifExists : Bool)
  | createIndex (name table : String) (paths : List String) (ifNotExists : Bool)
  | dropIndex (name : String) (ifExists : Bool)

namespace Work

variable (env : Env) (toF64 : Decimal → F64)

section Apply

def applyWrite (w : Work) (id : RowId) : Option Document → Option EngineError × Work
  | some doc => w.putRow env toF64 (ofLex id).1 (ofLex id).2 doc
  | none =>
    match w.committedDoc env (ofLex id).1 (ofLex id).2 with
    | (.error e, w₁) => (some e, w₁)
    | (.ok doc, w₁) => w₁.deleteRow env toF64 (ofLex id).1 (ofLex id).2 (doc.getD [])

def applyEntries : List (RowId × Option Document) → Work → Option EngineError × Work
  | [], w => (none, w)
  | (id, op) :: entries, w =>
    match w.applyWrite env toF64 id op with
    | (some e, w₁) => (some e, w₁)
    | (none, w₁) => applyEntries entries w₁

def flushPending (deferred : Bool) (w : Work) : Work :=
  if deferred then { w with pending := [], handed := w.handed ++ env.drain w.pending }
  else (env.drain w.pending).foldl (fun w p => w.perform (.engine p.1 (.sync p.2))) { w with pending := [] }

def applyTxnWrites (deferred : Bool) (w : Work) (writes : TxnWrites) : Option EngineError × Work :=
  let (applied, w₁) := applyEntries env toF64 writes.entries w
  (applied, w₁.flushPending env deferred)

end Apply

section Statements

variable (session : Nat) (deferred : Bool)

def begin (w : Work) : Option EngineError × Work :=
  match w.db.txn session with
  | some _ => (some (.constraint "a transaction is already in progress"), w)
  | none => (none, w.perform (.setTxn session (some OrdMap.empty)))

def rollback (w : Work) : Option EngineError × Work :=
  match w.db.txn session with
  | none => (some (.constraint "no transaction in progress"), w)
  | some _ => (none, w.perform (.setTxn session none))

-- The file is synced under a temporary name and then renamed.
def writeTxnJournal (w : Work) (writes : TxnWrites) : Work :=
  ((w.perform (.writeTmp (Journal.encode writes))).perform .syncTmp).perform .renameTmp

-- The journal is retired once the writes are applied; a failed apply leaves it behind.
def commit (w : Work) : Option EngineError × Work :=
  match w.db.txn session with
  | none => (some (.constraint "no transaction in progress"), w)
  | some writes =>
    match ((w.perform (.setTxn session none)).writeTxnJournal writes).applyTxnWrites env toF64 deferred writes with
    | (some e, w₁) => (some e, w₁)
    | (none, w₁) => (none, w₁.perform .removeJournal)

def bufferOp (table : String) (writes : TxnWrites) : RowOp → TxnWrites
  | .put key doc => writes.insert (toLex (table, key)) (some doc)
  | .delete key _ => writes.insert (toLex (table, key)) none

def rowOp (table : String) (w : Work) : RowOp → Option EngineError × Work
  | .put key doc => w.putRow env toF64 table key doc
  | .delete key doc => w.deleteRow env toF64 table key doc

def rowOps (table : String) : List RowOp → Work → Option EngineError × Work
  | [], w => (none, w)
  | op :: ops, w =>
    match rowOp env toF64 table w op with
    | (some e, w₁) => (some e, w₁)
    | (none, w₁) => rowOps table ops w₁

-- Inside a transaction the rows are buffered. Outside, what was applied is synced
-- whether or not the statement finished.
def writeRows (table : String) (ops : List RowOp) (w : Work) : Option EngineError × Work :=
  if w.db.hasTable table then
    match w.db.txn session with
    | some writes => (none, w.perform (.setTxn session (some (ops.foldl (bufferOp table) writes))))
    | none =>
      let (out, w₁) := rowOps env toF64 table ops w
      (out, w₁.flushPending env deferred)
  else (some (.tableNotFound table), w)

def createTable (name : String) (primaryKey : List String) (ifNotExists : Bool) (w : Work) :
    Option EngineError × Work :=
  if primaryKey.isEmpty then (some (.constraint "primary key must have at least one column"), w)
  else if w.db.hasTable name then
    if ifNotExists then (none, w.perform (.saveCatalog w.db.catalog))
    else (some (.tableExists name), w)
  else
    let catalog := { w.db.catalog with tables := w.db.catalog.tables.insert name ⟨primaryKey⟩ }
    (none, ((w.perform (.openDir (.table name) (w.tick env).wall)).perform (.setCatalog catalog)).perform
      (.saveCatalog catalog))

-- The directories of the indexes are removed before the catalog is saved, the table's
-- after.
def dropTable (name : String) (ifExists : Bool) (w : Work) : Option EngineError × Work :=
  if w.db.hasTable name then
    let indexes := w.db.catalog.indexesOn name
    let catalog := w.db.catalog.dropTable name
    let w₁ := indexes.foldl (fun w ix => w.perform (.removeDir (.index ix.1))) (w.perform (.setCatalog catalog))
    (none, (w₁.perform (.saveCatalog catalog)).perform (.removeDir (.table name)))
  else if ifExists then (none, w.perform (.saveCatalog w.db.catalog))
  else (some (.tableNotFound name), w)

-- The rows that are there already are indexed before the statement returns.
def backfill (name table : String) (paths : List String) (w : Work) : Work :=
  let rows := ((w.db.process (.table table)).map (fun p => p.engine.scan (w.tick env).now)).getD []
  rows.foldl (fun w row =>
    match decodeDocument row.2 with
    | some doc => w.indexPut env toF64 (name, paths) doc row.1
    | none => w) w

def createIndex (name table : String) (paths : List String) (ifNotExists : Bool) (w : Work) :
    Option EngineError × Work :=
  if w.db.hasTable table then
    if (w.db.catalog.indexes.get? name).isSome then
      if ifNotExists then (none, w.perform (.saveCatalog w.db.catalog))
      else (some (.indexExists name), w)
    else if 1 < (paths.filter isMulti).length then
      (some (.unsupported "at most one multikey ([]) component per index"), w)
    else
      let catalog := { w.db.catalog with indexes := w.db.catalog.indexes.insert name ⟨table, paths⟩ }
      let w₁ := ((w.perform (.openDir (.index name) (w.tick env).wall)).perform (.setCatalog catalog)).perform
        (.saveCatalog catalog)
      (none, (w₁.backfill env toF64 name table paths).perform (.saveCatalog catalog))
  else (some (.tableNotFound table), w)

def dropIndex (name : String) (ifExists : Bool) (w : Work) : Option EngineError × Work :=
  if (w.db.catalog.indexes.get? name).isSome || ifExists then
    let catalog := { w.db.catalog with indexes := w.db.catalog.indexes.erase name }
    (none, ((w.perform (.setCatalog catalog)).perform (.removeDir (.index name))).perform
      (.saveCatalog catalog))
  else (some (.indexNotFound name), w)

def execute (w : Work) : Statement → Option EngineError × Work
  | .begin => w.begin session
  | .commit => w.commit env toF64 session deferred
  | .rollback => w.rollback session
  | .write table ops => w.writeRows env toF64 session deferred table ops
  | .createTable name primaryKey ifNotExists => w.createTable env name primaryKey ifNotExists
  | .dropTable name ifExists => w.dropTable name ifExists
  | .createIndex name table paths ifNotExists => w.createIndex env toF64 name table paths ifNotExists
  | .dropIndex name ifExists => w.dropIndex name ifExists

end Statements

section Open

def openDirs : List Store → Work → Option EngineError × Work
  | [], w => (none, w)
  | store :: stores, w =>
    let w₁ := w.perform (.openDir store (w.tick env).wall)
    match w₁.db.process store with
    | none => (some (.storage "cannot open the engine"), w₁)
    | some _ => openDirs stores w₁

-- `Database::open_with_options`: a journal that can be read is applied again before it
-- is retired.
def openDatabase (w : Work) : Option EngineError × Work :=
  match w.db.loadCatalog with
  | .error e => (some e, w)
  | .ok catalog =>
    match openDirs env catalog.stores (w.perform (.start catalog)) with
    | (some e, w₁) => (some e, w₁)
    | (none, w₁) =>
      match w₁.db.readTxnJournal with
      | none => (none, w₁.perform .removeJournal)
      | some writes =>
        match w₁.applyTxnWrites env toF64 false writes with
        | (some e, w₂) => (some e, w₂)
        | (none, w₂) => (none, w₂.perform .removeJournal)

end Open

end Work

-- A statement of a connection, its syncs left to the caller or not; a step of a background
-- worker, or a sync by such a caller; an open. The process can die between statements, or
-- inside an action of a statement or an open.
inductive DbEvent where
  | execute (session : Nat) (deferred : Bool) (env : Env) (stmt : Statement)
  | crash (session : Nat) (deferred : Bool) (env : Env) (stmt : Statement) (n cut : Nat) (loss : Loss)
  | background (store : Store) (op : Op)
  | stop (loss : Loss)
  | reopen (env : Env) (loss : Loss)
  | crashReopen (env : Env) (n cut : Nat) (loss : Loss)

namespace Database

variable (toF64 : Decimal → F64) (db : Database)

def execute (session : Nat) (deferred : Bool) (env : Env) (stmt : Statement) :
    Option EngineError × Work :=
  (Work.ofDatabase db).execute env toF64 session deferred stmt

def openDatabase (env : Env) : Option EngineError × Work :=
  (Work.ofDatabase db).openDatabase env toF64

def cutAt (actions : List Action) (n cut : Nat) (loss : Loss) : Database :=
  (db.actAll (actions.take n)).crash actions[n]? cut loss

def step (event : DbEvent) : Database :=
  match event, db.live with
  | .execute session deferred env stmt, some _ => (db.execute toF64 session deferred env stmt).2.db
  | .crash session deferred env stmt n cut loss, some _ =>
    db.cutAt (db.execute toF64 session deferred env stmt).2.done n cut loss
  | .background store op, some _ => if op.isWrite then db else db.act (.engine store op)
  | .stop loss, some _ => db.crash none 0 loss
  | .reopen env loss, none =>
    match db.openDatabase toF64 env with
    | (none, w) => w.db
    | (some _, w) => w.db.crash none 0 loss
  | .crashReopen env n cut loss, none => db.cutAt (db.openDatabase toF64 env).2.done n cut loss
  | _, _ => db

def run (events : List DbEvent) : Database := events.foldl (step toF64) db

end Database

end Skaidb.Exec
