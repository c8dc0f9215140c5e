import Skaidb.Schema.Statements

namespace Skaidb.Schema

open Skaidb.Base Skaidb.Exec Skaidb.Storage List Catalog OrdMap

section Objects

-- What the catalog holds under a key. Plain and time-series tables share their names.
inductive ObjectDef where
  | database (registered : Bool)
  | table (plain : Option TableDef) (timeseries : Option TsTableDef)
  | index (idx : Option IndexDef)
  | vector (idx : Option VectorIndexDef)
  | search (idx : Option SearchIndexDef)
  | geo (idx : Option GeoIndexDef)
  | user (user : Option UserDef)
  | role (role : Option AuthRoleDef)
  deriving DecidableEq

namespace Catalog

variable (c : Catalog)

def object : SchemaKey → ObjectDef
  | .database name => .database (c.databases.contains name)
  | .table name => .table (c.tables.get? name) (c.timeseries.get? name)
  | .index name => .index (c.indexes.get? name)
  | .vector name => .vector (c.vectorIndexes.get? name)
  | .search name => .search (c.searchIndexes.get? name)
  | .geo name => .geo (c.geoIndexes.get? name)
  | .user name => .user (c.users.get? name)
  | .role name => .role (c.authRoles.get? name)

def version (key : SchemaKey) : Option Hlc := (c.schemaVersions.get? key).map SchemaVersion.hlc

theorem schemaAdvances_iff : c.schemaAdvances key hlc = true ↔ ∀ v, c.version key = some v → v < hlc := by
  rw [schemaAdvances, version]
  cases c.schemaVersions.get? key with
  | none | some v => simp

end Catalog

end Objects

section Touching

-- Outside the keys nothing changes; every version is the old one or the statement's stamp.
structure Touches (hlc : Hlc) (keys : Set SchemaKey) (c c' : Catalog) : Prop where
  object : ∀ key, key ∉ keys → c'.object key = c.object key
  version : ∀ key, key ∉ keys → c'.version key = c.version key
  stamps : ∀ key, c'.version key = c.version key ∨ c'.version key = some hlc

def AgreeOff {ν : Type} (keys : Set SchemaKey) (kind : String → SchemaKey) (m m' : OrdMap String ν) : Prop :=
  ∀ name, kind name ∉ keys → m'.get? name = m.get? name

variable {keys : Set SchemaKey} {c c' c'' : Catalog} {ν : Type} {m m' : OrdMap String ν}

namespace AgreeOff

theorem refl : AgreeOff keys kind m m := fun _ _ => rfl

section

variable (h : AgreeOff keys kind m m') (hk : kind name ∈ keys)

include h hk

theorem insert : AgreeOff keys kind m (m'.insert name value) := by
  intro other ho
  rw [get?_insert, if_neg (by rintro rfl; exact ho hk), h other ho]

theorem erase : AgreeOff keys kind m (m'.erase name) := by
  intro other ho
  rw [get?_erase, if_neg (by rintro rfl; exact ho hk), h other ho]

theorem modify {f : ν → ν} : AgreeOff keys kind m (m'.modify name f) := by
  intro other ho
  rw [get?_modify, if_neg (by rintro rfl; exact ho hk), h other ho]

end

theorem mapValues {f : ν → ν} (hf : ∀ e ∈ m.entries, f e.2 ≠ e.2 → kind e.1 ∈ keys) :
    AgreeOff keys kind m (m.mapValues f) := by
  intro other ho
  rw [get?_mapValues]
  cases hv : m.get? other with
  | none => rfl
  | some v =>
    rw [Option.map_some, Option.some_inj]
    by_contra hne
    exact ho (hf (other, v) ((get?_eq_some_iff _).mp hv) hne)

end AgreeOff

-- The maps of two catalogs agree outside the keys, and the versions everywhere.
structure Edits (keys : Set SchemaKey) (c c' : Catalog) : Prop where
  tables : AgreeOff keys .table c.tables c'.tables
  timeseries : AgreeOff keys .table c.timeseries c'.timeseries
  indexes : AgreeOff keys .index c.indexes c'.indexes
  vectorIndexes : AgreeOff keys .vector c.vectorIndexes c'.vectorIndexes
  searchIndexes : AgreeOff keys .search c.searchIndexes c'.searchIndexes
  geoIndexes : AgreeOff keys .geo c.geoIndexes c'.geoIndexes
  databases : AgreeOff keys .database c.databases c'.databases
  users : AgreeOff keys .user c.users c'.users
  authRoles : AgreeOff keys .role c.authRoles c'.authRoles
  versions : c'.schemaVersions = c.schemaVersions

theorem Edits.refl : Edits keys c c := ⟨.refl, .refl, .refl, .refl, .refl, .refl, .refl, .refl, .refl, rfl⟩

namespace Touches

theorem refl : Touches hlc keys c c := ⟨fun _ _ => rfl, fun _ _ => rfl, fun _ => .inl rfl⟩

section

variable (h : Touches hlc keys c c')

include h

theorem trans (h' : Touches hlc keys c' c'') : Touches hlc keys c c'' := by
  refine ⟨?_, ?_, ?_⟩
  · intro key hk
    rw [h'.object key hk, h.object key hk]
  · intro key hk
    rw [h'.version key hk, h.version key hk]
  · intro key
    obtain hsame | hnew := h'.stamps key
    · rw [hsame]
      exact h.stamps key
    · exact .inr hnew

theorem record (hk : key ∈ keys) : Touches hlc keys c (c'.recordSchema key hlc dropped) := by
  refine h.trans ⟨?_, ?_, ?_⟩
  · intro other ho
    cases other <;> rfl
  · intro other ho
    rw [Catalog.version, Catalog.recordSchema, OrdMap.get?_insert, if_neg (by rintro rfl; exact ho hk),
      Catalog.version]
  · intro other
    rw [Catalog.version, Catalog.recordSchema, OrdMap.get?_insert]
    by_cases ho : other = key
    · simp [ho]
    · simp [ho, Catalog.version]

theorem edit (he : Edits keys c' c'') : Touches hlc keys c c'' := by
  have hsame : ∀ key, c''.version key = c'.version key := by
    intro key
    rw [Catalog.version, he.versions, Catalog.version]
  refine h.trans ⟨?_, fun key _ => hsame key, fun key => .inl (hsame key)⟩
  intro key hk
  cases key with
  | database name => simp [Catalog.object, OrdMap.contains, he.databases name hk]
  | table name => simp [Catalog.object, he.tables name hk, he.timeseries name hk]
  | index name => simp [Catalog.object, he.indexes name hk]
  | vector name => simp [Catalog.object, he.vectorIndexes name hk]
  | search name => simp [Catalog.object, he.searchIndexes name hk]
  | geo name => simp [Catalog.object, he.geoIndexes name hk]
  | user name => simp [Catalog.object, he.users name hk]
  | role name => simp [Catalog.object, he.authRoles name hk]

theorem advances (hadv : c'.schemaAdvances key hlc = true) : c.schemaAdvances key hlc = true := by
  rw [schemaAdvances_iff] at hadv ⊢
  intro v hv
  obtain hsame | hstamp := h.stamps key
  · exact hadv v (hsame.trans hv)
  · exact absurd (hadv hlc hstamp) (lt_irrefl hlc)

end

theorem place (he : Edits keys c c') (hk : key ∈ keys) : Touches hlc keys c (c'.recordSchema key hlc dropped) :=
  (refl.edit he).record hk

end Touches

end Touching

section Others

variable (c : Catalog) (hlc : Hlc)

def tsDependents (name : String) : List SchemaKey :=
  match c.timeseries.get? name with
  | none => []
  | some ts => ts.rollups.map (fun r => .table r.name) ++ ts.rollupOf.toList.map .table

def dependents (name : String) : List SchemaKey :=
  tsDependents c name ++
  (c.indexes.entries.filter (fun e => e.2.table = name)).flatMap
    (fun e => .index e.1 :: if e.2.global then [.table (gidxTable e.1)] else []) ++
  (c.searchIndexes.entries.filter (fun e => e.2.table = name)).map (fun e => .search e.1) ++
  (c.vectorIndexes.entries.filter (fun e => e.2.table = name)).map (fun e => .vector e.1) ++
  (c.geoIndexes.entries.filter (fun e => e.2.table = name)).map (fun e => .geo e.1)

theorem mem_dependents : key ∈ dependents c name ↔ (∃ ts, c.timeseries.get? name = some ts ∧
        ((∃ r ∈ ts.rollups, key = .table r.name) ∨ ∃ source ∈ ts.rollupOf, key = .table source)) ∨
      (∃ n idx, c.indexes.get? n = some idx ∧ idx.table = name ∧
        (key = .index n ∨ idx.global = true ∧ key = .table (gidxTable n))) ∨
      (∃ n idx, c.searchIndexes.get? n = some idx ∧ idx.table = name ∧ key = .search n) ∨
      (∃ n idx, c.vectorIndexes.get? n = some idx ∧ idx.table = name ∧ key = .vector n) ∨
      (∃ n idx, c.geoIndexes.get? n = some idx ∧ idx.table = name ∧ key = .geo n) := by
  have hts : key ∈ tsDependents c name ↔ ∃ ts, c.timeseries.get? name = some ts ∧
        ((∃ r ∈ ts.rollups, key = .table r.name) ∨ ∃ source ∈ ts.rollupOf, key = .table source) := by
    rw [tsDependents]
    cases c.timeseries.get? name with
    | none => simp
    | some ts => simp [eq_comm]
  simp only [dependents, mem_append, hts, mem_flatMap, mem_map, mem_filter,
    get?_eq_some_iff, Prod.exists, decide_eq_true_eq, or_assoc, mem_cons, and_assoc,
    mem_ite_nil_right, not_mem_nil, or_false, eq_comm (a := key)]

def changedBy {ν : Type} [DecidableEq ν] (kind : String → SchemaKey) (m : OrdMap String ν) (f : ν → ν) :
    List SchemaKey :=
  (m.entries.filter (fun e => f e.2 ≠ e.2)).map (fun e => kind e.1)

def AlterAction.others (name : String) : AlterAction → List SchemaKey
  | .setOptions _ => [.table name]
  | .renameTable new =>
    [.table name, .table new] ++
      changedBy .index c.indexes (fun i => { i with table := renamed name new i.table }) ++
      changedBy .vector c.vectorIndexes (fun v => { v with table := renamed name new v.table }) ++
      changedBy .search c.searchIndexes (fun s => { s with table := renamed name new s.table })
  | .renameColumn old new =>
    [.table name] ++
      changedBy .index c.indexes (fun i => { i with paths := i.paths.map (renamedPath old new) }) ++
      (c.indexes.entries.filter (fun e => e.2.table = name)).map (fun e => .index e.1) ++
      changedBy .vector c.vectorIndexes (fun v => { v with path := renamed old new v.path }) ++
      changedBy .search c.searchIndexes (fun s => { s with paths := s.paths.map (renamed old new) })

def RoleStatement.others : RoleStatement → List SchemaKey
  | .createUser name _ _ _ _ | .alterUser name _ | .dropUser name _ => [.role name]
  | .createRole _ _ _ | .dropRole _ _ => []
  | .grant _ _ role | .revoke _ _ role => [.role role]
  | .grantRole _ member | .revokeRole _ member => [.role member]

-- The objects a statement changes or stamps without looking at their versions.
def Statement.others : Statement → List SchemaKey
  | .dropDatabase name _ =>
    (c.tables.keys.filter (fun t => belongsTo t name && c.schemaAdvances (.table t) hlc)).flatMap
        (dependents c) ++
      (c.indexes.entries.filter
        (fun e => belongsTo e.1 name && e.2.global && c.schemaAdvances (.index e.1) hlc)).map
        (fun e => .table (gidxTable e.1))
  | .createRollup _ table _ _ _ => [.table table]
  | .dropTable name _ => dependents c name
  | .createIndex name _ _ _ global _ =>
    if global && !c.tables.contains (gidxTable name) then [.table (gidxTable name)] else []
  | .dropIndex name _ =>
    match c.indexes.get? name with
    | none => []
    | some idx => if idx.global then [.table (gidxTable name)] else []
  | .alterTable name action => action.others c name
  | .auth s => s.others
  | _ => []

def RoleStatement.own : RoleStatement → Option SchemaKey
  | .createUser name _ _ _ _ | .alterUser name _ | .dropUser name _ => some (.user name)
  | .createRole name _ _ | .dropRole name _ => some (.role name)
  | _ => none

def Statement.own : Statement → Option SchemaKey
  | .createDatabase name _ | .dropDatabase name _ => some (.database name)
  | .createTable ct => some (.table ct.name)
  | .createTimeseriesTable name _ _ _ _ | .createRollup name _ _ _ _ | .dropTable name _ => some (.table name)
  | .createIndex name _ _ _ _ _ | .dropIndex name _ => some (.index name)
  | .createVectorIndex ci => some (.vector ci.name)
  | .dropVectorIndex name _ | .alterVectorIndex name _ => some (.vector name)
  | .createSearchIndex name _ _ _ _ | .dropSearchIndex name _
  | .alterSearchIndex name _ => some (.search name)
  | .createGeoIndex name _ _ _ | .dropGeoIndex name _ => some (.geo name)
  | .alterTable _ _ => none
  | .auth s => s.own

-- A statement that passes its own check is newer than everything else it changes.
def Statement.Covers (s : Statement) : Prop :=
  (∀ key ∈ s.own, c.schemaAdvances key hlc = true) →
    ∀ key ∈ s.others c hlc, c.schemaAdvances key hlc = true

instance (s : Statement) : Decidable (s.Covers c hlc) := by
  unfold Statement.Covers
  infer_instance

end Others

end Skaidb.Schema
