import Skaidb.Schema.Catalog

namespace Skaidb.Schema

open Skaidb.Base Skaidb.Exec Skaidb.Storage

-- What the handlers ask of the rest of the process: the dimension of the inference provider,
-- if one is configured, and the error of a search declaration, if it has one.
structure Env where
  embedderDim : Option Nat
  searchError : (paths : List String) → (options : List (String × String)) → Option EngineError

section Tables

variable (c : Catalog) (hlc : Hlc)

structure CreateTable where
  name : String
  ifNotExists : Bool
  primaryKey : List String
  ttlMs : Option Int
  memory : Bool
  replication : Option Nat
  nodes : List String
  witness : Bool
  deriving DecidableEq

def createNamed (name : String) (ifNotExists : Bool) (place : Catalog → Catalog) : Applied :=
  if !c.schemaAdvances (.table name) hlc then c.done
  else if c.tables.contains name || c.timeseries.contains name then
    if ifNotExists then (c.recordSchema (.table name) hlc false).done
    else c.failed (.tableExists name)
  else ((place c).recordSchema (.table name) hlc false).done

def createTable (ct : CreateTable) : Applied :=
  if ct.primaryKey = [] then
    c.failed (.constraint "primary key must have at least one column")
  else if (ct.replication.isSome || ct.nodes ≠ [] || !ct.witness) && isSystemTable ct.name then
    c.failed (.constraint
      ("'" ++ ct.name ++ "' is a system table: placement/witness options are not allowed"))
  else
    let table := ⟨ct.primaryKey, ct.ttlMs, ct.memory, ct.replication, ct.nodes, ct.witness, none⟩
    createNamed c hlc ct.name ct.ifNotExists (fun c => { c with tables := c.tables.insert ct.name table })

def createTimeseriesTable (name : String) (seriesKey : List String) (retentionMs : Option Int)
    (oooWindowMs : Int) (ifNotExists : Bool) : Applied :=
  if seriesKey = [] then c.failed (.constraint "SERIES KEY must have at least one column")
  else if seriesKey.any (fun col => col = "ts" || ['_', '_'].isPrefixOf col.toList) then
    c.failed (.constraint "series key columns may not be named `ts` or start with `__`")
  else
    createNamed c hlc name ifNotExists (fun c =>
      { c with timeseries := c.timeseries.insert name ⟨seriesKey, retentionMs, oooWindowMs, [], none⟩ })

def createRollup (name source : String) (bucketMs : Int) (retentionMs : Option Int)
    (ifNotExists : Bool) : Applied :=
  match c.timeseries.get? source with
  | none => c.failed (.unsupported ("ROLLUP source " ++ source ++ " must be a timeseries table"))
  | some src =>
    if src.rollupOf.isSome then c.failed (.unsupported "cannot create a rollup of a rollup")
    else if bucketMs ≤ 0 ∨ (2 * 3600 * 1000 : Int).tmod bucketMs ≠ 0 then
      c.failed (.constraint "BUCKET must be positive and evenly divide 2h")
    else
      createNamed c hlc name ifNotExists (fun c =>
        let placed := c.timeseries.insert name ⟨src.seriesKey, retentionMs, 0, [], some source⟩
        let listed := placed.modify source (fun d => { d with rollups := d.rollups ++ [⟨name, bucketMs⟩] })
        { c with timeseries := listed })

-- A time-series table goes with its rollups; a rollup leaves its source's list.
def dropTimeseries (name : String) (ts : TsTableDef) : Catalog :=
  let source := match ts.rollupOf with
    | none => c.timeseries
    | some source => c.timeseries.modify source
        (fun d => { d with rollups := d.rollups.filter (fun r => r.name ≠ name) })
  (name :: ts.rollups.map RollupDef.name).foldl
    (fun c victim => ({ c with timeseries := c.timeseries.erase victim }).recordSchema (.table victim) hlc true)
    { c with timeseries := source }

def dropTableIndex (c : Catalog) (e : String × IndexDef) : Catalog :=
  let c := ({ c with indexes := c.indexes.erase e.1 }).recordSchema (.index e.1) hlc true
  if e.2.global then
    ({ c with tables := c.tables.erase (gidxTable e.1) }).recordSchema (.table (gidxTable e.1)) hlc true
  else c

-- A table's indexes of every kind go with it, each under a version of its own.
def dropIndexesOf (name : String) (c : Catalog) : Catalog :=
  (c.indexes.entries.filter (fun e => e.2.table = name)).foldl (dropTableIndex hlc) c

def dropSearchOf (name : String) (c : Catalog) : Catalog :=
  (c.searchIndexes.entries.filter (fun e => e.2.table = name)).foldl
    (fun c e => ({ c with searchIndexes := c.searchIndexes.erase e.1 }).recordSchema (.search e.1) hlc true) c

def dropVectorOf (name : String) (c : Catalog) : Catalog :=
  (c.vectorIndexes.entries.filter (fun e => e.2.table = name)).foldl
    (fun c e => ({ c with vectorIndexes := c.vectorIndexes.erase e.1 }).recordSchema (.vector e.1) hlc true) c

def dropGeoOf (name : String) (c : Catalog) : Catalog :=
  (c.geoIndexes.entries.filter (fun e => e.2.table = name)).foldl
    (fun c e => ({ c with geoIndexes := c.geoIndexes.erase e.1 }).recordSchema (.geo e.1) hlc true) c

def dropTable (name : String) (ifExists : Bool) : Applied :=
  if !c.schemaAdvances (.table name) hlc then c.done
  else
    match c.timeseries.get? name with
    | some ts => (dropTimeseries c hlc name ts).done
    | none =>
      if !c.tables.contains name then
        if ifExists then (c.recordSchema (.table name) hlc true).done
        else c.failed (.tableNotFound name)
      else
        let c := { c with tables := c.tables.erase name }
        let c := dropGeoOf hlc name (dropVectorOf hlc name (dropSearchOf hlc name (dropIndexesOf hlc name c)))
        (c.recordSchema (.table name) hlc true).done

end Tables

section Indexes

variable (c : Catalog) (hlc : Hlc)

def createIndex (name table : String) (paths : List String) (ifNotExists global ready : Bool) : Applied :=
  match c.tables.get? table with
  | none => c.failed (.tableNotFound table)
  | some on =>
    if !c.schemaAdvances (.index name) hlc then c.done
    else if c.indexes.contains name then
      if ifNotExists then
        let indexes := if global && ready then
            c.indexes.modify name
              (fun d => if d.global && d.building then { d with building := false } else d)
          else c.indexes
        (({ c with indexes := indexes }).recordSchema (.index name) hlc false).done
      else c.failed (.indexExists name)
    else if on.memory then c.failed (.unsupported "indexes on memory tables are not supported")
    else if 1 < (paths.filter isMulti).length then
      c.failed (.unsupported "at most one multikey ([]) component per index")
    else if global then
      let tables := if c.tables.contains (gidxTable name) then c.tables
        else c.tables.insert (gidxTable name) ⟨["k"], none, false, none, [], true, none⟩
      (({ c with tables := tables, indexes := c.indexes.insert name ⟨table, paths, !ready, true⟩ }).recordSchema
        (.index name) hlc false).done
    else
      (({ c with indexes := c.indexes.insert name ⟨table, paths, true, false⟩ }).recordSchema
        (.index name) hlc false).done

def dropIndex (name : String) (ifExists : Bool) : Applied :=
  if !c.schemaAdvances (.index name) hlc then c.done
  else
    match c.indexes.get? name with
    | none =>
      if ifExists then (c.recordSchema (.index name) hlc true).done
      else c.failed (.indexNotFound name)
    | some idx =>
      let c := { c with indexes := c.indexes.erase name }
      let c := if idx.global then
          ({ c with tables := c.tables.erase (gidxTable name) }).recordSchema (.table (gidxTable name)) hlc true
        else c
      (c.recordSchema (.index name) hlc true).done

def knownMetric (metric : String) : Bool :=
  metric.toLower ∈ ["cosine", "cos", "l2", "euclidean", "dot", "ip", "inner"]

structure CreateVectorIndex where
  name : String
  table : String
  path : String
  metric : String
  dim : Nat
  embed : Bool
  quantized : Bool
  ifNotExists : Bool
  deriving DecidableEq

def CreateVectorIndex.differs (ci : CreateVectorIndex) (existing : VectorIndexDef) : Bool :=
  existing.table ≠ ci.table || existing.path ≠ ci.path || existing.metric.toLower ≠ ci.metric.toLower ||
    existing.embed ≠ ci.embed || existing.quantized ≠ ci.quantized || ci.dim ≠ existing.dim

def embedError (env : Env) (ci : CreateVectorIndex) : Option EngineError :=
  if ci.quantized && ci.embed then
    some (.unsupported ("QUANTIZED requires the vector stored in the row and cannot combine with " ++
      "EMBED (the row holds only the text — there is no exact vector to rescore against)"))
  else if ci.embed then
    match env.embedderDim with
    | none => some (.unsupported "CREATE VECTOR INDEX … EMBED needs a configured [inference] provider")
    | some d =>
      if d ≠ ci.dim then
        some (.constraint ("index DIM " ++ toString ci.dim ++ " does not match the inference model's dimension " ++
          toString d ++ " (inference.dim)"))
      else none
  else none

-- The end of a create: by now an older definition of that name is gone.
def placeVectorIndex (ci : CreateVectorIndex) (preservedEf : Option Nat) : Applied :=
  if !knownMetric ci.metric then c.failed (.constraint ("unknown vector metric '" ++ ci.metric ++ "'"))
  else
    match c.vectorIndexes.entries.find?
        (fun e => e.1 ≠ ci.name && e.2.table = ci.table && e.2.path = ci.path) with
    | some other =>
      c.failed (.constraint ("vector index '" ++ (split other.1).2 ++ "' already covers " ++ ci.table ++
        " (" ++ ci.path ++ ") — drop it first"))
    | none =>
      let placed := c.vectorIndexes.insert ci.name
        ⟨ci.table, ci.path, ci.metric.toLower, ci.dim, preservedEf, ci.embed, ci.quantized⟩
      (({ c with vectorIndexes := placed }).recordSchema (.vector ci.name) hlc false).done

def createVectorIndex (env : Env) (ci : CreateVectorIndex) : Applied :=
  if !c.tables.contains ci.table then c.failed (.tableNotFound ci.table)
  else
    match embedError env ci with
    | some e => c.failed e
    | none =>
      if !c.schemaAdvances (.vector ci.name) hlc then c.done
      else
        match c.vectorIndexes.get? ci.name with
        | none => placeVectorIndex c hlc ci none
        | some existing =>
          if !ci.ifNotExists then c.failed (.indexExists ci.name)
          else if !ci.differs existing then (c.recordSchema (.vector ci.name) hlc false).done
          else placeVectorIndex { c with vectorIndexes := c.vectorIndexes.erase ci.name } hlc ci existing.efSearch

def dropVectorIndex (name : String) (ifExists : Bool) : Applied :=
  if !c.schemaAdvances (.vector name) hlc then c.done
  else if !c.vectorIndexes.contains name && !ifExists then c.failed (.indexNotFound name)
  else (({ c with vectorIndexes := c.vectorIndexes.erase name }).recordSchema (.vector name) hlc true).done

-- The last `ef` of an option list, or the error of the first bad option.
def vectorOptions : List (String × String) → Option Nat → Except EngineError (Option Nat)
  | [], ef => .ok ef
  | (key, value) :: rest, _ =>
    if key = "ef" then
      match parseUnsigned (2 ^ 64 - 1) value with
      | none => .error (.type ("ef must be a positive integer, got '" ++ value ++ "'"))
      | some n =>
        if n = 0 ∨ 65536 < n then .error (.type "ef must be between 1 and 65536")
        else vectorOptions rest (some n)
    else if key = "m" ∨ key = "ef_construction" then
      .error (.unsupported ("'" ++ key ++ "' shapes the graph at build time — DROP and re-CREATE the " ++
        "vector index to change it"))
    else .error (.unsupported ("unknown vector index option '" ++ key ++ "' (try ef)"))

def alterVectorIndex (name : String) (options : List (String × String)) : Applied :=
  match vectorOptions options none with
  | .error e => c.failed e
  | .ok ef =>
    if !c.schemaAdvances (.vector name) hlc then c.done
    else if !c.vectorIndexes.contains name then c.failed (.indexNotFound name)
    else
      let tuned := c.vectorIndexes.modify name (fun d => { d with efSearch := ef.or d.efSearch })
      (({ c with vectorIndexes := tuned }).recordSchema (.vector name) hlc false).done

def createSearchIndex (env : Env) (name table : String) (paths : List String)
    (options : List (String × String)) (ifNotExists : Bool) : Applied :=
  if !c.tables.contains table then c.failed (.tableNotFound table)
  else if !c.schemaAdvances (.search name) hlc then c.done
  else
    match c.searchIndexes.get? name with
    | some existing =>
      if !ifNotExists then c.failed (.indexExists name)
      else if existing = ⟨table, paths, options⟩ then (c.recordSchema (.search name) hlc false).done
      else
        -- The definition is replaced before the rebuild can refuse it.
        let c := { c with searchIndexes := c.searchIndexes.insert name ⟨table, paths, options⟩ }
        match env.searchError paths options with
        | some e => c.failed e
        | none => (c.recordSchema (.search name) hlc false).done
    | none =>
      match env.searchError paths options with
      | some e => c.failed e
      | none =>
        (({ c with searchIndexes := c.searchIndexes.insert name ⟨table, paths, options⟩ }).recordSchema
          (.search name) hlc false).done

def dropSearchIndex (name : String) (ifExists : Bool) : Applied :=
  if !c.schemaAdvances (.search name) hlc then c.done
  else if !c.searchIndexes.contains name && !ifExists then c.failed (.indexNotFound name)
  else (({ c with searchIndexes := c.searchIndexes.erase name }).recordSchema (.search name) hlc true).done

def queryTime (key : String) : Bool :=
  key = "synonyms" || key = "refresh_ms" || ".search_analyzer".toList.isSuffixOf key.toList ||
    ".boost".toList.isSuffixOf key.toList

def mergeOptions (old new : List (String × String)) : List (String × String) :=
  new.foldl (fun merged o => merged.filter (fun e => e.1 ≠ o.1) ++ [o]) old

def alterSearchIndex (env : Env) (name : String) (options : List (String × String)) : Applied :=
  match options.find? (fun o => !queryTime o.1) with
  | some o =>
    c.failed (.type ("'" ++ o.1 ++ "' is an index-time option — DROP and re-CREATE the index to " ++
      "change it (ALTER SET takes synonyms, refresh_ms, <col>.search_analyzer, <col>.boost)"))
  | none =>
    if !c.schemaAdvances (.search name) hlc then c.done
    else
      match c.searchIndexes.get? name with
      | none => c.failed (.indexNotFound name)
      | some d =>
        match env.searchError d.paths (mergeOptions d.options options) with
        | some e => c.failed e
        | none =>
          let merged := c.searchIndexes.modify name
            (fun d => { d with options := mergeOptions d.options options })
          (({ c with searchIndexes := merged }).recordSchema (.search name) hlc false).done

def createGeoIndex (name table path : String) (ifNotExists : Bool) : Applied :=
  match c.tables.get? table with
  | none => c.failed (.tableNotFound table)
  | some on =>
    if !c.schemaAdvances (.geo name) hlc then c.done
    else
      match c.geoIndexes.get? name with
      | some existing =>
        if !ifNotExists then c.failed (.indexExists name)
        else if existing.table = table ∧ existing.path = path then
          (c.recordSchema (.geo name) hlc false).done
        else if on.memory then
          ({ c with geoIndexes := c.geoIndexes.erase name }).failed
            (.unsupported "geo indexes on memory tables are not supported")
        else
          (({ c with geoIndexes := c.geoIndexes.insert name ⟨table, path, true⟩ }).recordSchema
            (.geo name) hlc false).done
      | none =>
        if on.memory then c.failed (.unsupported "geo indexes on memory tables are not supported")
        else
          (({ c with geoIndexes := c.geoIndexes.insert name ⟨table, path, true⟩ }).recordSchema
            (.geo name) hlc false).done

def dropGeoIndex (name : String) (ifExists : Bool) : Applied :=
  if !c.schemaAdvances (.geo name) hlc then c.done
  else if !c.geoIndexes.contains name && !ifExists then c.failed (.indexNotFound name)
  else (({ c with geoIndexes := c.geoIndexes.erase name }).recordSchema (.geo name) hlc true).done

end Indexes

end Skaidb.Schema
