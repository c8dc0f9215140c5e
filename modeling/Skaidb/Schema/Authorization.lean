import Skaidb.Schema.Membership
import Skaidb.Schema.Touches

namespace Skaidb.Schema

open Skaidb.Base Skaidb.Storage List RoleStore

section Statements

def resolveTableRef (reference currentDb : String) : String :=
  match splitOnce '.' reference with
  | some (db, name) => qualify db name
  | none => qualify currentDb reference

def displayName (internal currentDb : String) : String :=
  if (split internal).1 = currentDb then (split internal).2
  else (split internal).1 ++ "." ++ (split internal).2

inductive IndexKind where
  | secondary
  | vector
  | search
  | geo
  deriving DecidableEq

-- The tables a query names. Without FROM the first name is empty. `rollup` is the rollup that
-- answers the older part of an aggregate over a time series, if one does.
inductive Select where
  | mk (source : String) (joins : List String) (nearest : Bool) (setOps : List Select) (rollup : Option String)

-- The statements, as far as they name tables and indexes. An append that `flushes` a window
-- passes it on to the rollups. Those that name none stand together by the privilege they
-- ask for.
inductive Auth.Statement where
  | select (query : Select)
  | explainScore (query : Select)
  | explain (statement : Auth.Statement)
  | insert (table : String) (flushes : Bool)
  | update (table : String)
  | delete (table : String)
  | ddl (statement : Schema.Statement)
  | rebuildSearchIndex (name : String)
  | suggest (index : String)
  | describe (table : String) (full : Bool)
  | transactionControl
  | introspection
  | showGrants (role : Option String)
  | monitoring
  | controlPlane

def Select.source : Select → String
  | .mk source _ _ _ _ => source

section Privileges

variable (indexOwner : String → Option String)

def Statement.requiredPrivilege : Statement → Option (Privilege × AuthObject)
  | .createTable ct => some (.create, .table ct.name)
  | .createTimeseriesTable name _ _ _ _ => some (.create, .table name)
  | .createRollup _ table _ _ _ | .createIndex _ table _ _ _ _ | .createSearchIndex _ table _ _ _
  | .createGeoIndex _ table _ _ => some (.create, .table table)
  | .createVectorIndex ci => some (.create, .table ci.table)
  | .dropTable name _ => some (.drop, .table name)
  | .dropIndex name _ | .dropVectorIndex name _ | .dropSearchIndex name _ | .dropGeoIndex name _
  | .alterSearchIndex name _ | .alterVectorIndex name _ =>
    (indexOwner name).map (fun table => (.create, .table table))
  | .alterTable name _ => some (.create, .table name)
  | .createDatabase _ _ => some (.create, .global)
  | .dropDatabase _ _ => some (.drop, .global)
  | .auth _ => some (.grant, .global)

def requiredPrivilege : Auth.Statement → Option (Privilege × AuthObject)
  | .select query => if query.source = "" then none else some (.select, .table query.source)
  | .explainScore query => some (.select, .table query.source)
  | .explain statement => requiredPrivilege statement
  | .insert table _ => some (.insert, .table table)
  | .update table => some (.update, .table table)
  | .delete table => some (.delete, .table table)
  | .ddl statement => statement.requiredPrivilege indexOwner
  | .rebuildSearchIndex name => (indexOwner name).map (fun table => (.create, .table table))
  | .suggest _ => some (.select, .global)
  | .describe _ full => if full then some (.select, .global) else none
  | .transactionControl => some (.insert, .global)
  | .introspection => none
  | .showGrants _ => some (.grant, .global)
  | .monitoring => some (.monitor, .global)
  | .controlPlane => some (.admin, .global)

end Privileges

end Statements

section Session

variable (c : Catalog) (currentDb : String)

def Catalog.indexTable (name : String) : IndexKind → Option String
  | .secondary => (c.indexes.get? name).map (fun d => d.table)
  | .vector => (c.vectorIndexes.get? name).map (fun d => d.table)
  | .search => (c.searchIndexes.get? name).map (fun d => d.table)
  | .geo => (c.geoIndexes.get? name).map (fun d => d.table)

def Catalog.indexOwnerTable (index : String) : Option String :=
  let owner := c.indexTable (qualify currentDb index)
  ((((owner .secondary).or (owner .vector)).or (owner .search)).or (owner .geo)).map
    (fun table => displayName table currentDb)

def RoleStore.allowedOnTable (store : RoleStore) (role : String) (privilege : Privilege) (table : String) : Bool :=
  let canonical := resolveTableRef table currentDb
  store.hasPrivilege role privilege (.table canonical) ||
    store.hasPrivilege role privilege (.database (split canonical).1)

-- The check that `execute_session_statement_via` makes for a role that is not the superuser.
def RoleStore.authorized (store : RoleStore) (role : String) (statement : Auth.Statement) : Bool :=
  match requiredPrivilege (c.indexOwnerTable currentDb) statement with
  | none => true
  | some (privilege, .table table) => store.allowedOnTable currentDb role privilege table
  | some (privilege, object) => store.hasPrivilege role privilege object

def Catalog.rollupsOf (table : String) : List String :=
  ((c.timeseries.get? table).map (fun d => d.rollups.map (fun r => r.name))).getD []

-- What `run_select_impl` reads. Neither a time series nor NEAREST goes with JOIN or UNION.
def Select.core : Select → List String
  | .mk source joins _ _ _ => if source = "" then [] else source :: joins

def Select.reads : Select → List String
  | .mk source joins nearest setOps rollup =>
    let table := resolveTableRef source currentDb
    if source = "" then []
    else if c.timeseries.contains table || nearest then
      if joins = [] ∧ setOps.length = 0 then table :: rollup.toList.filter (· ∈ c.rollupsOf table) else []
    else (source :: joins ++ setOps.flatMap Select.core).map (resolveTableRef · currentDb)

def Catalog.userTables : List String := c.tables.keys ++ c.timeseries.keys

-- `resolve_statement` passes over ALTER VECTOR INDEX.
def Statement.resolve : Statement → Statement
  | .createTable ct => .createTable { ct with name := resolveTableRef ct.name currentDb }
  | .createTimeseriesTable name seriesKey retentionMs oooMs ifNotExists =>
    .createTimeseriesTable (resolveTableRef name currentDb) seriesKey retentionMs oooMs ifNotExists
  | .createRollup name table bucketMs retentionMs ifNotExists =>
    .createRollup (resolveTableRef name currentDb) (resolveTableRef table currentDb) bucketMs retentionMs ifNotExists
  | .dropTable name ifExists => .dropTable (resolveTableRef name currentDb) ifExists
  | .createIndex name table paths ifNotExists global ready =>
    .createIndex (qualify currentDb name) (resolveTableRef table currentDb) paths ifNotExists global ready
  | .createVectorIndex ci =>
    .createVectorIndex { ci with name := qualify currentDb ci.name, table := resolveTableRef ci.table currentDb }
  | .createSearchIndex name table paths options ifNotExists =>
    .createSearchIndex (qualify currentDb name) (resolveTableRef table currentDb) paths options ifNotExists
  | .createGeoIndex name table path ifNotExists =>
    .createGeoIndex (qualify currentDb name) (resolveTableRef table currentDb) path ifNotExists
  | .dropIndex name ifExists => .dropIndex (qualify currentDb name) ifExists
  | .dropVectorIndex name ifExists => .dropVectorIndex (qualify currentDb name) ifExists
  | .dropSearchIndex name ifExists => .dropSearchIndex (qualify currentDb name) ifExists
  | .dropGeoIndex name ifExists => .dropGeoIndex (qualify currentDb name) ifExists
  | .alterSearchIndex name options => .alterSearchIndex (qualify currentDb name) options
  | .alterTable name (.renameTable new) =>
    .alterTable (resolveTableRef name currentDb) (.renameTable (resolveTableRef new currentDb))
  | .alterTable name action => .alterTable (resolveTableRef name currentDb) action
  | statement => statement

def Catalog.objectKeys : List SchemaKey :=
  c.userTables.map .table ++ c.indexes.keys.map .index ++ c.vectorIndexes.keys.map .vector ++
    c.searchIndexes.keys.map .search ++ c.geoIndexes.keys.map .geo

-- An index stands for its table, with the entry table of a global one.
def Catalog.tablesOf : SchemaKey → List String
  | .table name => if name ∈ c.indexes.keys.map gidxTable then [] else [name]
  | .index name => (c.indexTable name .secondary).toList
  | .vector name => (c.indexTable name .vector).toList
  | .search name => (c.indexTable name .search).toList
  | .geo name => (c.indexTable name .geo).toList
  | _ => []

-- The tables of the objects in which two catalogs differ.
def Catalog.changed (c' : Catalog) : List String :=
  ((c.objectKeys ++ c'.objectKeys).filter (fun key => c'.object key ≠ c.object key)).flatMap
    (fun key => c.tablesOf key ++ c'.tablesOf key)

def Statement.privilege : Statement → Privilege
  | .dropTable _ _ | .dropDatabase _ _ => .drop
  | _ => .create

-- What a statement meets when it is executed: its stamp, and the tables that the open
-- transaction has written.
structure Execution where
  world : World
  hlc : Hlc
  txn : List String

-- The tables whose rows an execution reads or writes and those it creates, alters, drops or
-- renames to, with the privilege that goes with it.
def touched (x : Execution) : Auth.Statement → List (Privilege × String)
  | .select query => ((query.reads c currentDb).filter (· ∈ c.userTables)).map (Prod.mk .select)
  | .explainScore query => ([qualify currentDb query.source].filter (· ∈ c.userTables)).map (Prod.mk .select)
  | .explain _ => []
  | .insert table flushes =>
    let name := resolveTableRef table currentDb
    (name :: if flushes then (c.rollupsOf name).filter c.timeseries.contains else []).map (Prod.mk .insert)
  | .update table => [(.update, resolveTableRef table currentDb)]
  | .delete table => [(.delete, resolveTableRef table currentDb)]
  | .ddl statement =>
    (c.changed ((statement.resolve currentDb).apply x.world c x.hlc).1).map (Prod.mk statement.privilege)
  | .rebuildSearchIndex name => (c.indexTable (qualify currentDb name) .search).toList.map (Prod.mk .create)
  | .suggest index => (c.indexTable (qualify currentDb index) .search).toList.map (Prod.mk .select)
  | .describe table full => if full then [(.select, resolveTableRef table currentDb)] else []
  | .transactionControl => x.txn.map (Prod.mk .insert)
  -- BACKUP and RESTORE take every table
  | .controlPlane => c.userTables.map (Prod.mk .admin)
  | .introspection | .showGrants _ | .monitoring => []

-- The check has looked at the table, or at the whole instance, for this privilege.
def checks (statement : Auth.Statement) (need : Privilege × String) : Bool :=
  match requiredPrivilege (c.indexOwnerTable currentDb) statement with
  | some (privilege, .table table) => privilege = need.1 && resolveTableRef table currentDb = need.2
  | some (privilege, object) => privilege = need.1 && object = .global
  | none => false

def unchecked (x : Execution) (statement : Auth.Statement) : List (Privilege × String) :=
  (touched c currentDb x statement).filter (fun need => !checks c currentDb statement need)

end Session

section Coverage

variable {c : Catalog} {currentDb : String} {store : RoleStore}

def RoleStore.Holds (store : RoleStore) (role : String) (need : Privilege × String) : Prop :=
  store.hasPrivilege role need.1 (.table need.2) = true ∨
    store.hasPrivilege role need.1 (.database (split need.2).1) = true

theorem RoleStore.hasPrivilege_of_global (h : store.hasPrivilege role privilege .global = true) :
    store.hasPrivilege role privilege object = true := by
  rw [hasPrivilege_iff] at h ⊢
  obtain ⟨holder, hreach, hholds⟩ := h
  refine ⟨holder, hreach, ?_⟩
  unfold holds at hholds ⊢
  split at hholds
  · cases hholds
  case h_2 r _ =>
    simp only [allows, Bool.or_eq_true] at hholds ⊢
    tauto

theorem holds_of_checks (h : store.authorized c currentDb role statement = true)
    (hneed : checks c currentDb statement need = true) : store.Holds role need := by
  unfold authorized at h
  unfold checks at hneed
  split at hneed
  · simp only [Bool.and_eq_true, decide_eq_true_eq] at hneed
    simp_all [allowedOnTable, RoleStore.Holds]
  · simp only [Bool.and_eq_true, decide_eq_true_eq] at hneed
    obtain ⟨rfl, rfl⟩ := hneed
    simp_all [RoleStore.Holds, hasPrivilege_of_global]
  · cases hneed

theorem mem_changed {c c' : Catalog} (hchanged : c'.object key ≠ c.object key)
    (ht : t ∈ c.tablesOf key ++ c'.tablesOf key) : t ∈ c.changed c' := by
  refine mem_flatMap.mpr ⟨key, mem_filter.mpr ⟨?_, by simpa using hchanged⟩, ht⟩
  by_contra hkey
  refine hchanged ?_
  cases key with
  | database _ | user _ | role _ => cases ht
  | table name | index name | vector name | search name | geo name =>
    simp [Catalog.objectKeys, Catalog.userTables, OrdMap.mem_keys, ← Option.ne_none_iff_exists'] at hkey
    simp [Catalog.object, hkey]

def appStore (tables : List String) : RoleStore :=
  ⟨OrdMap.empty.insert "app" ⟨tables.flatMap (fun t => [(.table t, .select), (.table t, .create)]), []⟩⟩

def threeTables : Catalog :=
  let table : TableDef := ⟨["id"], none, false, none, [], true, none⟩
  { Catalog.default with
    tables := ((OrdMap.empty.insert "a" table).insert "b" table).insert "secret" table
    indexes := OrdMap.empty.insert "i" ⟨"secret", ["x"], false, false⟩ }

def joined : Auth.Statement := .select (.mk "a" ["b"] false [.mk "secret" [] false [] none] none)

def columnRenamed : Auth.Statement := .ddl (.alterTable "a" (.renameColumn "x" "y"))

def firstExecution : Execution :=
  ⟨⟨⟨none, fun _ _ => none⟩, ⟨fun _ password => password, fun _ => true⟩, none⟩, ⟨1, 0⟩, []⟩

end Coverage

end Skaidb.Schema
