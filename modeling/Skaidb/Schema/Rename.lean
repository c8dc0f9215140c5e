import Mathlib.Logic.Function.Basic
import Skaidb.Schema.Statements
import Skaidb.Storage.Engine

namespace Skaidb.Schema

open Skaidb.Base Skaidb.Exec Skaidb.Storage List

variable {Row : Type}

structure TableEngine (Row : Type) where
  rows : List (Hlc × Row)
  ttlMs : Option Nat
  ephemeral : Bool

def TableEngine.scan (e : TableEngine Row) (now : UInt64) : List Row :=
  (e.rows.filter (fun r => !rowExpired e.ttlMs now r.1)).map Prod.snd

-- `ms as u64`.
def TableDef.engineTtl (d : TableDef) : Option Nat := d.ttlMs.map (fun ms => (ms % 2 ^ 64).toNat)

-- A database with the rows each table directory would give back when it is opened. The files of
-- an ephemeral engine are unlinked while it runs, so they give none. `series` has what each
-- time-series store answers.
structure Site (Row : Type) where
  catalog : Catalog
  dirs : String → Option (List (Hlc × Row))
  tables : String → Option (TableEngine Row)
  series : String → List Row

namespace Site

variable (s : Site Row)

def openEngine (name : String) (ephemeral : Bool) : TableEngine Row :=
  ⟨if ephemeral then [] else (s.dirs name).getD [], none, ephemeral⟩

def openTable (name : String) (d : TableDef) : TableEngine Row :=
  { s.openEngine name d.memory with ttlMs := d.engineTtl }

def openWithOptions : Site Row :=
  { s with tables := fun name => (s.catalog.tables.get? name).map (s.openTable name) }

def moveDir (old new : String) : Except EngineError (Site Row) :=
  match s.dirs old, s.dirs new with
  | none, _ => .ok s
  | some _, some _ => .error (.io "Directory not empty (os error 39)")
  | some rows, none =>
    .ok { s with dirs := Function.update (Function.update s.dirs old none) new (some rows) }

-- The engine under the new name is opened with the options of the database alone: `ephemeral` is
-- off and no TTL is set.
def renameTable (old new : String) (d : TableDef) : Site Row × Except EngineError Unit :=
  if s.catalog.tables.contains new then (s, .error (.tableExists new))
  else
    let closed := { s with tables := Function.update s.tables old none }
    match closed.moveDir old new with
    | .error e => (closed, .error e)
    | .ok moved =>
      ({ moved with
        catalog := (Schema.renameTable s.catalog old new d).1
        tables := Function.update moved.tables new (some (moved.openEngine new false)) }, .ok ())

-- A query asks for a time series of the name first.
def query (name : String) (now : UInt64) : Option (List Row) :=
  if (s.catalog.timeseries.get? name).isSome then some (s.series name) else (s.tables name).map (·.scan now)

end Site

def TableDef.kept (d : TableDef) (rows : List (Hlc × Row)) : List (Hlc × Row) := if d.memory then [] else rows

namespace Site

-- The table is open with the settings of its definition, and its directory keeps its rows.
structure Holds (s : Site Row) (name : String) (d : TableDef) (rows : List (Hlc × Row)) : Prop where
  defined : s.catalog.tables.get? name = some d
  plain : s.catalog.timeseries.get? name = none
  engine : s.tables name = some ⟨rows, d.engineTtl, d.memory⟩
  dir : s.dirs name = some (d.kept rows)

def Follow {ν : Type} (table : ν → String) (m m' : OrdMap String ν) (old new : String) : Prop :=
  ∀ name v, m.get? name = some v → table v = old → ∃ v', m'.get? name = some v' ∧ table v' = new

structure Renamed (s s' : Site Row) (old new : String) : Prop where
  query : ∀ now, s'.query new now = s.query old now
  reopened : ∀ now, s'.openWithOptions.query new now = s.query old now
  indexes : Follow IndexDef.table s.catalog.indexes s'.catalog.indexes old new
  vector : Follow VectorIndexDef.table s.catalog.vectorIndexes s'.catalog.vectorIndexes old new
  search : Follow SearchIndexDef.table s.catalog.searchIndexes s'.catalog.searchIndexes old new
  geo : Follow GeoIndexDef.table s.catalog.geoIndexes s'.catalog.geoIndexes old new

section Rename

variable {s : Site Row} {old new : String} {d : TableDef} {rows : List (Hlc × Row)}

theorem renameTable_eq (h : s.Holds old d rows) (hnew : s.catalog.tables.get? new = none)
    (hdir : s.dirs new = none) : s.renameTable old new d = (⟨(Schema.renameTable s.catalog old new d).1,
        Function.update (Function.update s.dirs old none) new (some (d.kept rows)),
        Function.update (Function.update s.tables old none) new (some ⟨d.kept rows, none, false⟩), s.series⟩,
      .ok ()) := by
  simp [renameTable, OrdMap.contains, hnew, moveDir, h.dir, hdir, openEngine]

theorem follow_mapValues {ν : Type} {table : ν → String} {m : OrdMap String ν} {f : ν → ν}
    (hf : ∀ v, table (f v) = renamed old new (table v)) : Follow table m (m.mapValues f) old new := by
  intro name v hv hold
  refine ⟨f v, by rw [OrdMap.get?_mapValues, hv, Option.map_some], ?_⟩
  rw [hf, renamed, if_pos hold]

theorem kept_eq_self (h : ∀ r ∈ rows, d.memory = false) : d.kept rows = rows := by
  cases rows with
  | nil => simp [TableDef.kept]
  | cons r rest => rw [TableDef.kept, h r (by simp), if_neg Bool.false_ne_true]

-- The engine left open has no TTL, so it shows all that the directory gave back.
theorem scan_kept_iff : (∀ now, TableEngine.scan ⟨d.kept rows, none, false⟩ now =
        TableEngine.scan ⟨rows, d.engineTtl, d.memory⟩ now) ↔
      ∀ r ∈ rows, d.memory = false ∧ ∀ now, rowExpired d.engineTtl now r.1 = false := by
  have hall : ∀ now, TableEngine.scan ⟨d.kept rows, none, false⟩ now = (d.kept rows).map Prod.snd := by
    simp [TableEngine.scan, rowExpired]
  simp only [hall]
  constructor
  · intro h
    have hmemory : ∀ r ∈ rows, d.memory = false := by
      intro r hr
      by_contra hmemory
      have hshown : r.2 ∈ TableEngine.scan ⟨rows, d.engineTtl, d.memory⟩ 0 := by
        refine mem_map_of_mem (mem_filter.mpr ⟨hr, ?_⟩)
        cases d.engineTtl <;> simp [rowExpired]
      rw [← h 0, TableDef.kept, if_pos (by simpa using hmemory)] at hshown
      cases hshown
    intro r hr
    refine ⟨hmemory r hr, fun now => ?_⟩
    have hlen := congrArg List.length (h now)
    rw [kept_eq_self hmemory, length_map, TableEngine.scan, length_map, eq_comm,
      length_filter_eq_length_iff] at hlen
    simpa using hlen r hr
  · intro h now
    rw [kept_eq_self (fun r hr => (h r hr).1), TableEngine.scan,
      filter_eq_self.mpr (fun r hr => by rw [(h r hr).2 now, Bool.not_false])]

theorem catalog_renameTable {c c' : Catalog} (hnew : c.tables.get? new = none)
    (hc : (Schema.renameTable c old new d).1 = c') :
    c'.tables.get? new = some d ∧ c'.timeseries = c.timeseries ∧ c'.geoIndexes = c.geoIndexes ∧
      Follow IndexDef.table c.indexes c'.indexes old new ∧
      Follow VectorIndexDef.table c.vectorIndexes c'.vectorIndexes old new ∧
      Follow SearchIndexDef.table c.searchIndexes c'.searchIndexes old new := by
  rw [Schema.renameTable, if_neg (by simp [OrdMap.contains, hnew])] at hc
  subst hc
  exact ⟨by simp [Catalog.done], rfl, rfl, follow_mapValues (fun _ => rfl), follow_mapValues (fun _ => rfl),
    follow_mapValues (fun _ => rfl)⟩

def venue : TableDef := ⟨["id"], some 1000, false, some 2, [], false, none⟩

def venues (stamp : UInt64) (geo : OrdMap String GeoIndexDef) : Site String where
  catalog := { Catalog.default with
    tables := OrdMap.empty.insert "v" venue
    timeseries := OrdMap.empty.insert "load" ⟨["host"], none, 0, [], none⟩
    indexes := OrdMap.empty.insert "i" ⟨"v", ["city"], false, false⟩
    vectorIndexes := OrdMap.empty.insert "e" ⟨"v", "text", "cosine", 3, none, false, false⟩
    searchIndexes := OrdMap.empty.insert "f" ⟨"v", ["text"], []⟩
    geoIndexes := geo }
  dirs name := if name = "v" then some [(⟨stamp, 0⟩, "a"), (⟨stamp, 1⟩, "b")] else none
  tables name := if name = "v" then some ⟨[(⟨stamp, 0⟩, "a"), (⟨stamp, 1⟩, "b")], venue.engineTtl, false⟩ else none
  series _ := ["sample"]

def lastStamp : UInt64 := 18446744073709551615

theorem lastStamp_kept (ttlMs : Option Nat) (now : UInt64) (logical : UInt32) :
    rowExpired ttlMs now ⟨lastStamp, logical⟩ = false := by
  have hnow := now.toNat_lt
  have hlast : lastStamp.toNat = 18446744073709551615 := by decide
  have hnone : now.toNat - lastStamp.toNat = 0 := by omega
  cases ttlMs with
  | none => rfl
  | some ttl => simp [rowExpired, hnone]

def expiring : Site String := venues 1 (OrdMap.empty.insert "g" ⟨"v", "at", false⟩)

end Rename

end Site

end Skaidb.Schema
