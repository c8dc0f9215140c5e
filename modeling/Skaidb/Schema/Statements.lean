import Skaidb.Schema.Objects
import Skaidb.Schema.Roles

namespace Skaidb.Schema

open Skaidb.Base Skaidb.Exec Skaidb.Storage

section Alter

variable (c : Catalog)

def placementInProgress (table : String) : EngineError :=
  .constraint ("'" ++ table ++ "' already has a placement transition in progress; wait for it to finalize " ++
    "(or run REPAIR CLUSTER, then ALTER TABLE " ++ table ++ " SET (placement_finalized = true))")

-- A pin list all of whose members are pinned already takes effect at once.
def setNodes (table : String) (new : List String) (d : TableDef) : Except EngineError TableDef :=
  if new = [] then
    .error (.constraint ("SET (nodes = ...) needs at least one member; to unpin, " ++
      "transition to ring placement with SET (replication = n)"))
  else if d.prevPlacement.isSome then .error (placementInProgress table)
  else
    let shrink := d.pinnedNodes ≠ [] && new.all (fun n => n ∈ d.pinnedNodes)
    let prev := if !shrink && d.pinnedNodes ≠ new then some ⟨d.replication, d.pinnedNodes⟩ else none
    .ok { d with prevPlacement := prev, replication := none, pinnedNodes := new }

def setReplication (table : String) (n : Nat) (d : TableDef) : Except EngineError TableDef :=
  if n = 0 then .error (.constraint "replication must be at least 1")
  else if d.prevPlacement.isSome then .error (placementInProgress table)
  else if d.replication ≠ some n ∨ d.pinnedNodes ≠ [] then
    .ok { d with
      prevPlacement := some ⟨d.replication, d.pinnedNodes⟩, pinnedNodes := [], replication := some n }
  else .ok d

def setTableOption (table : String) (option value : String) (d : TableDef) : Except EngineError TableDef :=
  match option with
  | "witness" => .ok { d with witness := value = "true" || value = "1" }
  | "nodes" => setNodes table ((splitAll ',' value).filter (fun n => n ≠ "")) d
  | "replication" =>
    match parseUnsigned (2 ^ 32 - 1) value with
    | none => .error (.constraint ("replication must be a positive integer, got '" ++ value ++ "'"))
    | some n => setReplication table n d
  | "ttl" =>
    match parseSigned value with
    | none => .error (.constraint ("ttl must be a duration like 30d (or integer ms), got '" ++ value ++ "'"))
    | some ms =>
      if ms < 0 then .error (.constraint "ttl must not be negative")
      else .ok { d with ttlMs := if 0 < ms then some ms else none }
  | "placement_finalized" => .ok { d with prevPlacement := none }
  | other =>
    .error (.unsupported ("unknown ALTER TABLE option '" ++ other ++
      "' (supported: ttl, witness, nodes, replication, placement_finalized; " ++
      "retention/ooo apply to TIMESERIES tables)"))

def setTsOption (option value : String) (d : TsTableDef) : Except EngineError TsTableDef :=
  match parseSigned value with
  | none =>
    .error (.constraint (option ++ " must be a duration like 60d (or integer ms), got '" ++ value ++ "'"))
  | some ms =>
    if ms < 0 then .error (.constraint (option ++ " must not be negative"))
    else if option = "retention" then .ok { d with retentionMs := if 0 < ms then some ms else none }
    else if option = "ooo" then .ok { d with oooWindowMs := ms }
    else
      .error (.unsupported ("unknown ALTER TABLE option '" ++ option ++
        "' for a timeseries table (supported: retention, ooo)"))

-- Options take effect one by one; those before a bad one stay.
def setOptions {δ : Type} (set : String → String → δ → Except EngineError δ) :
    List (String × String) → δ → δ × Except EngineError Unit
  | [], d => (d, .ok ())
  | (option, value) :: rest, d =>
    match set option value d with
    | .error e => (d, .error e)
    | .ok d' => setOptions set rest d'

def setTableOptions (table : String) (d : TableDef) (options : List (String × String)) : Applied :=
  if isSystemTable table then
    c.failed (.constraint
      ("'" ++ table ++ "' is a system table: placement/witness options are not allowed"))
  else
    let result := setOptions (setTableOption table) options d
    ({ c with tables := c.tables.insert table result.1 }, result.2)

def setTsTableOptions (table : String) (d : TsTableDef) (options : List (String × String)) : Applied :=
  let result := setOptions setTsOption options d
  ({ c with timeseries := c.timeseries.insert table result.1 }, result.2)

def renamed (old new name : String) : String := if name = old then new else name

def renameTable (old new : String) (d : TableDef) : Applied :=
  if c.tables.contains new then c.failed (.tableExists new)
  else
    ({ c with
      tables := (c.tables.erase old).insert new d
      indexes := c.indexes.mapValues (fun i => { i with table := renamed old new i.table })
      vectorIndexes := c.vectorIndexes.mapValues (fun v => { v with table := renamed old new v.table })
      searchIndexes := c.searchIndexes.mapValues (fun s => { s with table := renamed old new s.table }) }).done

def renamedPath (old new path : String) : String :=
  if path = old then new else if path = old ++ "[]" then new ++ "[]" else path

-- The paths of every index are renamed, those of other tables too.
def renamePaths (table old new : String) : Catalog :=
  { c with
    tables := c.tables.modify table (fun d => { d with primaryKey := d.primaryKey.map (renamed old new) })
    indexes := c.indexes.mapValues (fun i => { i with paths := i.paths.map (renamedPath old new) })
    vectorIndexes := c.vectorIndexes.mapValues (fun v => { v with path := renamed old new v.path })
    searchIndexes := c.searchIndexes.mapValues (fun s => { s with paths := s.paths.map (renamed old new) }) }

-- After the paths the rows are rewritten (`rows` is the error of that, if there is one) and the
-- table's own indexes rebuilt.
def renameColumn (env : Env) (rows : Option EngineError) (table old new : String) : Applied :=
  let c := renamePaths c table old new
  match rows with
  | some e => c.failed e
  | none =>
    let rebuilt := c.indexes.mapValues
      (fun i => if i.table = table then { i with building := true } else i)
    let c := { c with indexes := rebuilt }
    match (c.searchIndexes.entries.filter (fun e => e.2.table = table)).findSome?
        (fun e => env.searchError e.2.paths e.2.options) with
    | some e => c.failed e
    | none => c.done

inductive AlterAction where
  | renameTable (newName : String)
  | renameColumn (old new : String)
  | setOptions (options : List (String × String))
  deriving DecidableEq

-- No ALTER TABLE form looks at the table's version or records one.
def alterTable (env : Env) (rows : Option EngineError) (name : String) (action : AlterAction) : Applied :=
  match c.timeseries.get? name, action with
  | some d, .setOptions options => setTsTableOptions c name d options
  | some _, _ =>
    c.failed (.unsupported "timeseries tables support ALTER TABLE ... SET (retention/ooo) only")
  | none, action =>
    match c.tables.get? name, action with
    | none, _ => c.failed (.tableNotFound name)
    | some d, .renameTable newName => renameTable c name newName d
    | some _, .renameColumn old new => renameColumn c env rows name old new
    | some d, .setOptions options => setTableOptions c name d options

end Alter

section Databases

variable (c : Catalog) (hlc : Hlc)

def createDatabase (name : String) (ifNotExists : Bool) : Applied :=
  if !validDatabaseName name then
    c.failed (.constraint ("invalid database name " ++ name.quote ++
      ": use letters, digits, '_' or '-' (max 64 chars)"))
  else if !c.schemaAdvances (.database name) hlc then c.done
  else if c.hasDatabase name && !ifNotExists then c.failed (.databaseExists name)
  else
    let databases := if c.hasDatabase name then c.databases else c.databases.insert name ()
    (({ c with databases := databases }).recordSchema (.database name) hlc false).done

-- The inner drops carry IF EXISTS and the statement's own stamp, so they cannot fail.
def dropDatabase (name : String) (ifExists : Bool) : Applied :=
  if name = DEFAULT_DATABASE then c.failed (.constraint "cannot drop the default database")
  else if !c.schemaAdvances (.database name) hlc then c.done
  else if !c.databases.contains name then
    if ifExists then (c.recordSchema (.database name) hlc true).done
    else c.failed (.databaseNotFound name)
  else
    let c := (c.tables.keys.filter (fun t => belongsTo t name)).foldl
      (fun c t => (dropTable c hlc t true).1) c
    let c := (c.vectorIndexes.keys.filter (fun i => belongsTo i name)).foldl
      (fun c i => (dropVectorIndex c hlc i true).1) c
    let c := (c.searchIndexes.keys.filter (fun i => belongsTo i name)).foldl
      (fun c i => (dropSearchIndex c hlc i true).1) c
    let c := (c.indexes.keys.filter (fun i => belongsTo i name)).foldl
      (fun c i => (dropIndex c hlc i true).1) c
    (({ c with databases := c.databases.erase name }).recordSchema (.database name) hlc true).done

end Databases

inductive Statement where
  | createDatabase (name : String) (ifNotExists : Bool)
  | dropDatabase (name : String) (ifExists : Bool)
  | createTable (ct : CreateTable)
  | createTimeseriesTable (name : String) (seriesKey : List String) (retentionMs : Option Int)
      (oooMs : Int) (ifNotExists : Bool)
  | createRollup (name table : String) (bucketMs : Int) (retentionMs : Option Int) (ifNotExists : Bool)
  | dropTable (name : String) (ifExists : Bool)
  | createIndex (name table : String) (paths : List String) (ifNotExists global ready : Bool)
  | dropIndex (name : String) (ifExists : Bool)
  | createVectorIndex (ci : CreateVectorIndex)
  | dropVectorIndex (name : String) (ifExists : Bool)
  | alterVectorIndex (name : String) (options : List (String × String))
  | createSearchIndex (name table : String) (paths : List String) (options : List (String × String))
      (ifNotExists : Bool)
  | dropSearchIndex (name : String) (ifExists : Bool)
  | alterSearchIndex (name : String) (options : List (String × String))
  | createGeoIndex (name table path : String) (ifNotExists : Bool)
  | dropGeoIndex (name : String) (ifExists : Bool)
  | alterTable (name : String) (action : AlterAction)
  | auth (s : RoleStatement)
  deriving DecidableEq

-- What a statement meets outside the catalog: the collaborators of the process, and the
-- error of rewriting rows under a new column name.
structure World where
  env : Env
  scram : Scram
  rows : Option EngineError

def Statement.apply (w : World) (c : Catalog) (hlc : Hlc) : Statement → Applied
  | createDatabase name ifNotExists => Schema.createDatabase c hlc name ifNotExists
  | dropDatabase name ifExists => Schema.dropDatabase c hlc name ifExists
  | createTable ct => Schema.createTable c hlc ct
  | createTimeseriesTable name seriesKey retentionMs oooMs ifNotExists =>
    Schema.createTimeseriesTable c hlc name seriesKey retentionMs oooMs ifNotExists
  | createRollup name table bucketMs retentionMs ifNotExists =>
    Schema.createRollup c hlc name table bucketMs retentionMs ifNotExists
  | dropTable name ifExists => Schema.dropTable c hlc name ifExists
  | createIndex name table paths ifNotExists global ready =>
    Schema.createIndex c hlc name table paths ifNotExists global ready
  | dropIndex name ifExists => Schema.dropIndex c hlc name ifExists
  | createVectorIndex ci => Schema.createVectorIndex c hlc w.env ci
  | dropVectorIndex name ifExists => Schema.dropVectorIndex c hlc name ifExists
  | alterVectorIndex name options => Schema.alterVectorIndex c hlc name options
  | createSearchIndex name table paths options ifNotExists =>
    Schema.createSearchIndex c hlc w.env name table paths options ifNotExists
  | dropSearchIndex name ifExists => Schema.dropSearchIndex c hlc name ifExists
  | alterSearchIndex name options => Schema.alterSearchIndex c hlc w.env name options
  | createGeoIndex name table path ifNotExists => Schema.createGeoIndex c hlc name table path ifNotExists
  | dropGeoIndex name ifExists => Schema.dropGeoIndex c hlc name ifExists
  | alterTable name action => Schema.alterTable c w.env w.rows name action
  | auth s => s.apply c hlc w.scram

end Skaidb.Schema
