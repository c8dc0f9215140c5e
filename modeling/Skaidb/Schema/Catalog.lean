import Mathlib.Data.String.Basic
import Skaidb.Base.OrdMap
import Skaidb.Base.Texts
import Skaidb.Exec.Basics
import Skaidb.Storage.Hlc

namespace Skaidb.Schema

open Skaidb.Base Skaidb.Exec Skaidb.Storage

section Namespaces

def DEFAULT_DATABASE : String := "default"

def SEP : Char := '\x1f'

def qualify (db name : String) : String :=
  if db = DEFAULT_DATABASE then name else db ++ String.singleton SEP ++ name

def split (internal : String) : String × String :=
  (splitOnce SEP internal).getD (DEFAULT_DATABASE, internal)

def belongsTo (name db : String) : Bool := (split name).1 = db

def validDatabaseName (name : String) : Bool :=
  name ≠ "" && name.utf8ByteSize ≤ 64 && name ≠ DEFAULT_DATABASE &&
    name.toList.all (fun c => c.isAlphanum || c = '_' || c = '-')

def isSystemTable (name : String) : Bool :=
  name ∈ ["node_stats", "drivers", "witnesses", "witness_gc_config", "witness_sync_state",
    "cluster_meta", "node_aliases", "metrics"]

def gidxTable (indexName : String) : String :=
  qualify (split indexName).1 ("__gidx__" ++ (split indexName).2)

end Namespaces

inductive SchemaKey where
  | database (name : String)
  | table (name : String)
  | index (name : String)
  | vector (name : String)
  | search (name : String)
  | geo (name : String)
  | user (name : String)
  | role (name : String)
  deriving DecidableEq, Repr

namespace SchemaKey

def text : SchemaKey → String
  | database name => "d:" ++ name
  | table name => "t:" ++ name
  | index name => "i:" ++ name
  | vector name => "v:" ++ name
  | search name => "s:" ++ name
  | geo name => "g:" ++ name
  | user name => "usr:" ++ name
  | role name => "rol:" ++ name

theorem text_injective : Function.Injective text := by
  intro a b h
  have hlist := congrArg String.toList h
  cases a <;> cases b <;> simp [text, String.toList_append, String.toList_inj] at hlist ⊢ <;> exact hlist

-- The version map is keyed by these texts.
instance : LinearOrder SchemaKey := LinearOrder.lift' text text_injective

end SchemaKey

structure SchemaVersion where
  hlc : Hlc
  dropped : Bool

structure IndexDef where
  table : String
  paths : List String
  building : Bool
  global : Bool
  deriving DecidableEq

structure VectorIndexDef where
  table : String
  path : String
  metric : String
  dim : Nat
  efSearch : Option Nat
  embed : Bool
  quantized : Bool
  deriving DecidableEq

structure GeoIndexDef where
  table : String
  path : String
  building : Bool
  deriving DecidableEq

structure SearchIndexDef where
  table : String
  paths : List String
  options : List (String × String)
  deriving DecidableEq

structure PrevPlacement where
  replication : Option Nat
  pinnedNodes : List String
  deriving DecidableEq

structure TableDef where
  primaryKey : List String
  ttlMs : Option Int
  memory : Bool
  replication : Option Nat
  pinnedNodes : List String
  witness : Bool
  prevPlacement : Option PrevPlacement
  deriving DecidableEq

structure RollupDef where
  name : String
  bucketMs : Int
  deriving DecidableEq

structure TsTableDef where
  seriesKey : List String
  retentionMs : Option Int
  oooWindowMs : Int
  rollups : List RollupDef
  rollupOf : Option String
  deriving DecidableEq

inductive UserAuthKind where
  | scram
  | gssapi
  deriving DecidableEq

structure UserDef where
  credential : String
  authKind : UserAuthKind
  deriving DecidableEq

structure AuthRoleDef where
  grants : List (String × Option String)
  inherits : List String
  deriving DecidableEq

def AuthRoleDef.default : AuthRoleDef := ⟨[], []⟩

structure Catalog where
  tables : OrdMap String TableDef
  timeseries : OrdMap String TsTableDef
  indexes : OrdMap String IndexDef
  vectorIndexes : OrdMap String VectorIndexDef
  searchIndexes : OrdMap String SearchIndexDef
  geoIndexes : OrdMap String GeoIndexDef
  databases : OrdMap String Unit
  users : OrdMap String UserDef
  authRoles : OrdMap String AuthRoleDef
  schemaVersions : OrdMap SchemaKey SchemaVersion

variable (c : Catalog)

namespace Catalog

def default : Catalog :=
  ⟨OrdMap.empty, OrdMap.empty, OrdMap.empty, OrdMap.empty, OrdMap.empty, OrdMap.empty,
    OrdMap.empty, OrdMap.empty, OrdMap.empty, OrdMap.empty⟩

def hasDatabase (name : String) : Bool :=
  name = DEFAULT_DATABASE || c.databases.contains name

def schemaAdvances (key : SchemaKey) (hlc : Hlc) : Bool :=
  match c.schemaVersions.get? key with
  | none => true
  | some v => v.hlc < hlc

def recordSchema (key : SchemaKey) (hlc : Hlc) (dropped : Bool) : Catalog :=
  { c with schemaVersions := c.schemaVersions.insert key ⟨hlc, dropped⟩ }

end Catalog

-- A statement leaves the catalog it has edited so far, also when it fails.
abbrev Applied := Catalog × Except EngineError Unit

def Catalog.done : Applied := (c, .ok ())

def Catalog.failed (error : EngineError) : Applied := (c, .error error)

end Skaidb.Schema
