import Skaidb.Base.InverseIndex
import Skaidb.Exec.Table
import Skaidb.Storage.Engine.Contents

namespace Skaidb.Exec

open Skaidb.Base Skaidb.Types Skaidb.Storage List Table Index

variable (toF64 : Decimal → F64)

section Entries

variable {p : Process}

theorem logical_now_le (clock : HlcClock) (wall : UInt64) :
    (clock.now wall).last.logical.toNat ≤ clock.last.logical.toNat + 1 := by
  unfold HlcClock.now advance
  split
  · simp
  · rw [UInt32.toNat_add]
    exact Nat.mod_le ..

theorem writeEntries_spec (h : Ahead p) (value : VersionValue) (ticks : Nat → Tick) (i : Nat)
    (keys : List Bytes) (hroom : p.engine.clock.last.logical.toNat + keys.length < 2 ^ 32) :
    Ahead (writeEntries value ticks i keys p) ∧
      (writeEntries value ticks i keys p).engine.clock.last.logical.toNat ≤
        p.engine.clock.last.logical.toNat + keys.length ∧
      ∀ other, (writeEntries value ticks i keys p).engine.live other =
        if other ∈ keys then versionToValue value else p.engine.live other := by
  induction keys generalizing p i with
  | nil => exact ⟨h, le_refl _, fun other => by simp [writeEntries]⟩
  | cons key keys ih =>
    rw [length_cons] at hroom
    obtain ⟨hahead, hlive⟩ := h.write true (ticks i).wall (ticks i).now key value
      (.inr (by omega))
    have hclock := logical_now_le p.engine.clock (ticks i).wall
    have hstep := Process.clock_step_write p .clock true (ticks i).wall (ticks i).now key value
    rw [Session.tick] at hstep
    rw [← hstep] at hclock
    obtain ⟨hahead', hclock', hlive'⟩ := ih hahead (i + 1) (by omega)
    refine ⟨hahead', ?_, ?_⟩
    · rw [length_cons]
      exact hclock'.trans (by omega)
    · intro other
      rw [writeEntries, hlive', hlive]
      by_cases hk : other ∈ keys
      · simp [hk]
      · simp [hk]

end Entries

def Table.row (t : Table) (key : Bytes) : Option Document := (t.rows.engine.live key).bind decodeDocument

def Index.room (ix : Index) (entries : Nat) : Prop :=
  ix.store.engine.clock.last.logical.toNat + entries < 2 ^ 32

variable {op : Op}

namespace Index

variable {ix : Index} {rows : Bytes → Option Document}

structure Consistent (ix : Index) (rows : Bytes → Option Document) : Prop where
  ahead : Ahead ix.store
  inverts : Inverts (entryKeys toF64 ix.paths) rows ix.store.engine.live

def delRow (ix : Index) (ticks : Nat → Tick) (row : Option Document) (key : Bytes) : Index :=
  row.elim ix (fun old => ix.del toF64 ticks old key)

variable {toF64}

@[simp] theorem paths_delRow {ticks : Nat → Tick} {row : Option Document} :
    (ix.delRow toF64 ticks row key).paths = ix.paths := by
  cases row <;> rfl

@[simp] theorem name_delRow (ticks : Nat → Tick) (row : Option Document) :
    (ix.delRow toF64 ticks row key).name = ix.name := by
  cases row <;> rfl

theorem delRow_spec (h : Ahead ix.store) {ticks : Nat → Tick} {row : Option Document}
    (hroom : ix.room (filed (entryKeys toF64 ix.paths) row key).length) :
    Ahead (ix.delRow toF64 ticks row key).store ∧
      (ix.delRow toF64 ticks row key).store.engine.clock.last.logical.toNat ≤
        ix.store.engine.clock.last.logical.toNat +
          (filed (entryKeys toF64 ix.paths) row key).length ∧
      ∀ k, (ix.delRow toF64 ticks row key).store.engine.live k =
        if k ∈ filed (entryKeys toF64 ix.paths) row key then none else ix.store.engine.live k := by
  cases row with
  | none => exact ⟨h, le_refl _, fun k => rfl⟩
  | some old => exact writeEntries_spec h .delete ticks 0 _ hroom

section

variable (h : ix.Consistent toF64 rows)

include h

theorem Consistent.delRow (ticks : Nat → Tick)
    (hroom : ix.room (filed (entryKeys toF64 ix.paths) (rows key) key).length) :
    (ix.delRow toF64 ticks (rows key) key).Consistent toF64 (Function.update rows key none) := by
  obtain ⟨hahead, -, hlive⟩ := delRow_spec h.ahead hroom
  refine ⟨hahead, ?_⟩
  rw [paths_delRow, funext hlive]
  exact h.inverts.erase key

theorem Consistent.putRow (dels puts : Nat → Tick)
    (hdisj : ∀ other, other ≠ key → (entryKeys toF64 ix.paths doc key).Disjoint
      (filed (entryKeys toF64 ix.paths) (rows other) other))
    (hroom : ix.room ((filed (entryKeys toF64 ix.paths) (rows key) key).length +
      (entryKeys toF64 ix.paths doc key).length)) :
    ((ix.delRow toF64 dels (rows key) key).put toF64 puts doc key).Consistent toF64
      (Function.update rows key (some doc)) := by
  have hroom' : ix.room (filed (entryKeys toF64 ix.paths) (rows key) key).length := by
    unfold room at hroom ⊢
    omega
  obtain ⟨hahead, hclock, hlive⟩ := delRow_spec h.ahead hroom'
  obtain ⟨hahead', -, hlive'⟩ := writeEntries_spec hahead (.put key) puts 0
    (entryKeys toF64 (ix.delRow toF64 dels (rows key) key).paths doc key)
    (by rw [paths_delRow]; unfold room at hroom; omega)
  refine ⟨hahead', ?_⟩
  rw [put, funext hlive', funext hlive, paths_delRow]
  exact h.inverts.replace hdisj

theorem Consistent.maintain (hop : op.isWrite = false) :
    Consistent toF64 { ix with store := ix.store.step op } rows := by
  refine ⟨h.ahead.maintain hop, ?_⟩
  rw [funext (h.ahead.tidy.live_maintain hop)]
  exact h.inverts

end

end Index

namespace Table

variable {t : Table}

structure Consistent (t : Table) : Prop where
  rows : Tidy t.rows
  indexes : ∀ ix ∈ t.indexes, ix.Consistent toF64 t.row

def NotStale (t : Table) (key : Bytes) (hlc : Hlc) : Prop :=
  ∀ v ∈ t.rows.engine.current key, v.1 ≤ hlc

-- No visible row but the one written has an entry in common with the new document.
def EntriesFree (t : Table) (ix : Index) (key : Bytes) (doc : Document) : Prop :=
  ∀ row ∈ t.rows.engine.scan 0, row.1 ≠ key → ∀ k ∈ entryKeys toF64 ix.paths doc key,
    k ∉ filed (entryKeys toF64 ix.paths) (decodeDocument row.2) row.1

-- Replicated writes that arrive in stamp order, whose entries are their own, and
-- which the index clocks can stamp.
def Orderly (t : Table) : Apply → Prop
  | .put _ key bytes hlc =>
    t.NotStale key hlc ∧ ∀ doc ∈ decodeDocument bytes, ∀ ix ∈ t.indexes,
      t.EntriesFree toF64 ix key doc ∧
        ix.room ((filed (entryKeys toF64 ix.paths) (t.row key) key).length +
          (entryKeys toF64 ix.paths doc key).length)
  | .delete _ key hlc =>
    t.NotStale key hlc ∧ ∀ ix ∈ t.indexes,
      ix.room (filed (entryKeys toF64 ix.paths) (t.row key) key).length
  | _ => True

instance (t : Table) (a : Apply) : Decidable (t.Orderly toF64 a) := by
  cases a <;> (simp only [Orderly, NotStale, EntriesFree, Index.room]; infer_instance)

variable {toF64}

theorem create_consistent (opts indexOpts : EngineOptions) (wall : UInt64)
    (indexes : List (String × List String)) : (create opts indexOpts wall indexes).Consistent toF64 := by
  refine ⟨Tidy.fresh opts wall, ?_⟩
  intro ix hix
  obtain ⟨spec, -, rfl⟩ := mem_map.mp hix
  refine ⟨Ahead.fresh indexOpts wall, ?_⟩
  have hrow : (create opts indexOpts wall indexes).row = fun _ => none := by
    funext key
    unfold row create
    rw [Process.fresh_live]
    rfl
  rw [hrow, funext (Process.fresh_live indexOpts wall)]
  exact Inverts.empty

variable {p : Process}

theorem row_update {row : Option Bytes}
    (h : ∀ other, p.engine.live other = if other = key then row else t.rows.engine.live other)
    {indexes : List Index} : Table.row ⟨p, indexes⟩ = Function.update t.row key (row.bind decodeDocument) := by
  funext other
  unfold Table.row
  rw [h]
  by_cases heq : other = key
  · subst heq
    simp
  · simp [heq]

structure ReadAs (p p' : Process) : Prop where
  tidy : Tidy p'
  live : p'.engine.live = p.engine.live
  thins : Thins Tombstone p.engine.current p'.engine.current

theorem readAs_refl (h : Tidy p) : ReadAs p p := ⟨h, rfl, Thins.refl _ _⟩

theorem readAs_read (h : Tidy p) (key : Bytes) : ReadAs p (p.step (.read key)) :=
  ⟨(h.maintain rfl).1, funext (h.live_maintain rfl), (h.maintain rfl).2⟩

theorem writeRow_spec (hread : ReadAs t.rows p) (hnew : t.NotStale key hlc) {tick : Tick} :
    Tidy (p.step (.write (.given hlc) true tick.wall tick.now key value)) ∧
      ∀ other, (p.step (.write (.given hlc) true tick.wall tick.now key value)).engine.live other =
        if other = key then versionToValue value else t.rows.engine.live other := by
  rw [← hread.live]
  refine hread.tidy.live_write (.given hlc) true tick.wall tick.now key value ?_
  intro v hv
  exact hnew v (hread.thins.eq_some hv)

theorem readRow_eq (h : Tidy t.rows) (now : UInt64) (key : Bytes) :
    t.readRow now key = (t.row key, { t with rows := t.rows.step (.read key) }) := by
  unfold readRow row
  rw [h.get]

theorem indexDelPrevious_eq (h : Tidy t.rows) (ticks : Ticks) (key : Bytes) :
    ∃ p, ReadAs t.rows p ∧ t.indexDelPrevious toF64 ticks key =
      ⟨p, t.indexes.map (fun ix => ix.delRow toF64 (ticks.del ix.name) (t.row key) key)⟩ := by
  unfold indexDelPrevious
  split
  case isTrue hempty =>
    refine ⟨t.rows, readAs_refl h, ?_⟩
    rw [isEmpty_iff.mp hempty, map_nil, ← isEmpty_iff.mp hempty]
  case isFalse =>
    refine ⟨_, readAs_read h key, ?_⟩
    rw [readRow_eq h]
    cases t.row key with
    | some old => rfl
    | none => simp [delRow]

theorem applyDelete_eq (h : Tidy t.rows) {ticks : Ticks} {key : Bytes} {hlc : Hlc} :
    t.applyDelete toF64 ticks key hlc =
      ⟨(t.rows.step (.read key)).step (.write (.given hlc) true ticks.row.wall ticks.row.now key .delete),
        t.indexes.map (fun ix => ix.delRow toF64 (ticks.del ix.name) (t.row key) key)⟩ := by
  unfold applyDelete
  rw [readRow_eq h]
  cases t.row key with
  | some old => rfl
  | none => simp [delRow, writeRow]

theorem applyPut_ok (h : Tidy t.rows) {ticks : Ticks}
    (happly : t.applyPut toF64 ticks key bytes hlc = .ok t') :
    (t.indexes = [] ∧ t' = t.writeRow ticks.row key (.put bytes) hlc) ∨
    ∃ doc p, decodeDocument bytes = some doc ∧ ReadAs t.rows p ∧
      t' = ⟨p.step (.write (.given hlc) true ticks.row.wall ticks.row.now key (.put bytes)),
        t.indexes.map (fun ix => (ix.delRow toF64 (ticks.del ix.name) (t.row key) key).put toF64
          (ticks.put ix.name) doc key)⟩ := by
  unfold applyPut at happly
  split at happly
  case isTrue hempty =>
    cases happly
    exact .inl ⟨isEmpty_iff.mp hempty, rfl⟩
  case isFalse =>
    split at happly
    · cases happly
    case h_2 doc hdec =>
      obtain ⟨p, hread, hdel⟩ := indexDelPrevious_eq h ticks key
      rw [hdel] at happly
      cases happly
      refine .inr ⟨doc, p, ?_, hread, ?_⟩
      · rw [decodeDocument, hdec]
      · simp only [writeRow, indexPutAll, map_map, Table.mk.injEq, true_and]
        refine map_congr_left ?_
        intro ix hix
        simp only [Function.comp_apply, name_delRow]
    · cases happly

namespace Consistent

section

variable (h : t.Consistent toF64)

include h

theorem entriesFree {ix : Index} (hfree : t.EntriesFree toF64 ix key doc) (other : Bytes)
    (hne : other ≠ key) :
    (entryKeys toF64 ix.paths doc key).Disjoint
      (filed (entryKeys toF64 ix.paths) (t.row other) other) := by
  intro k hk hother
  unfold row at hother
  cases hlive : t.rows.engine.live other with
  | none =>
    rw [hlive] at hother
    cases hother
  | some bytes =>
    rw [hlive] at hother
    exact hfree (other, bytes) (h.rows.mem_scan.mpr hlive) hne k hk hother

theorem put (ticks : Ticks) (hgood : t.Orderly toF64 (.put ticks key bytes hlc)) {t' : Table}
    (happly : t.applyPut toF64 ticks key bytes hlc = .ok t') : t'.Consistent toF64 := by
  obtain ⟨hnew, hentries⟩ := hgood
  rcases applyPut_ok h.rows happly with ⟨hempty, rfl⟩ | ⟨doc, p, hdoc, hread, rfl⟩
  · obtain ⟨htidy, -⟩ := writeRow_spec (readAs_refl h.rows) hnew
    refine ⟨htidy, ?_⟩
    intro ix hix
    rw [writeRow, hempty] at hix
    cases hix
  · obtain ⟨htidy, hlive⟩ := writeRow_spec hread hnew
    refine ⟨htidy, ?_⟩
    rw [row_update hlive, versionToValue, Option.bind_some, hdoc]
    intro ix hix
    obtain ⟨old, hold, rfl⟩ := mem_map.mp hix
    obtain ⟨hfree, hroom⟩ := hentries doc hdoc old hold
    exact (h.indexes old hold).putRow (ticks.del old.name) (ticks.put old.name)
      (h.entriesFree hfree) hroom

theorem delete (ticks : Ticks) (hgood : t.Orderly toF64 (.delete ticks key hlc)) :
    (t.applyDelete toF64 ticks key hlc).Consistent toF64 := by
  obtain ⟨hnew, hroom⟩ := hgood
  rw [applyDelete_eq h.rows]
  obtain ⟨htidy, hlive⟩ := writeRow_spec (readAs_read h.rows key) hnew
  refine ⟨htidy, ?_⟩
  rw [row_update hlive]
  intro ix hix
  obtain ⟨old, hold, rfl⟩ := mem_map.mp hix
  exact (h.indexes old hold).delRow (ticks.del old.name) (hroom old hold)

theorem maintainRows (hop : op.isWrite = false) : Consistent toF64 { t with rows := t.rows.step op } := by
  refine ⟨(h.rows.maintain hop).1, ?_⟩
  have hrow : ({ t with rows := t.rows.step op } : Table).row = t.row := by
    unfold row
    rw [funext (h.rows.live_maintain hop)]
  rw [hrow]
  exact h.indexes

theorem maintainIndex (name : String) (hop : op.isWrite = false) :
    Consistent toF64 { t with indexes := t.indexes.map (fun ix =>
      if ix.name = name then { ix with store := ix.store.step op } else ix) } := by
  refine ⟨h.rows, ?_⟩
  intro ix hix
  obtain ⟨old, hold, rfl⟩ := mem_map.mp hix
  split
  · exact (h.indexes old hold).maintain hop
  · exact h.indexes old hold

theorem step (a : Apply) (hgood : t.Orderly toF64 a) : (t.step toF64 a).Consistent toF64 := by
  cases a with
  | put ticks key bytes hlc =>
    rw [Table.step]
    cases happly : t.applyPut toF64 ticks key bytes hlc with
    | ok t' => exact h.put ticks hgood happly
    | error e => exact h
  | delete ticks key hlc => exact h.delete ticks hgood
  | maintainRows op =>
    rw [Table.step]
    split
    · exact h
    case isFalse hop => exact h.maintainRows (by simpa using hop)
  | maintainIndex name op =>
    rw [Table.step]
    split
    · exact h
    case isFalse hop => exact h.maintainIndex name (by simpa using hop)

theorem run (hrun : Along (Table.step toF64) (Orderly toF64) t applies) :
    (t.run toF64 applies).Consistent toF64 :=
  hrun.invariant (fun _ a hs hgood => hs.step a hgood) h

end

end Consistent

-- In every run of orderly steps the entries of an index, scanned or looked up,
-- are those of the rows the table's reads return.
theorem run_indexes_exact (opts indexOpts : EngineOptions) (wall : UInt64)
    (indexes : List (String × List String)) (applies : List Apply)
    (hrun : Along (Table.step toF64) (Orderly toF64) (create opts indexOpts wall indexes) applies)
    (now : UInt64) :
    let t := (create opts indexOpts wall indexes).run toF64 applies
    ∀ ix ∈ t.indexes, ∀ k r,
      ((k, r) ∈ ix.store.engine.scan now ↔ ∃ bytes doc, (r, bytes) ∈ t.rows.engine.scan now ∧
        decodeDocument bytes = some doc ∧ k ∈ entryKeys toF64 ix.paths doc r) ∧
      ((ix.store.engine.get now k).1 = some r ↔ ∃ bytes doc,
        (t.rows.engine.get now r).1 = some bytes ∧
        decodeDocument bytes = some doc ∧ k ∈ entryKeys toF64 ix.paths doc r) := by
  intro t ix hix k r
  have hcons : t.Consistent toF64 := (create_consistent opts indexOpts wall indexes).run hrun
  obtain ⟨hahead, hinv⟩ := hcons.indexes ix hix
  have hlive : ix.store.engine.live k = some r ↔ ∃ bytes doc, t.rows.engine.live r = some bytes ∧
      decodeDocument bytes = some doc ∧ k ∈ entryKeys toF64 ix.paths doc r := by
    rw [hinv k r, row]
    cases t.rows.engine.live r with
    | none => simp
    | some bytes =>
      cases hdoc : decodeDocument bytes with
      | none | some doc => simp [hdoc]
  constructor
  · simp only [hahead.tidy.mem_scan, hcons.rows.mem_scan, hlive]
  · simp only [hahead.tidy.get, hcons.rows.get, hlive]

def everyTick (wall : UInt64) : Ticks :=
  ⟨wall, ⟨wall, wall⟩, fun _ _ => ⟨wall, wall⟩, fun _ _ => ⟨wall, wall⟩⟩

def rowOf (n : UInt8) : Bytes :=
  [10, 1, 0, 0, 0, 1, 0, 0, 0, 97, 2, n, 0, 0, 0, 0, 0, 0, 0]

def roomyEngine : EngineOptions := ⟨1000, 4, 8, 16, 1000, false⟩

def indexedOnA : Table := create roomyEngine roomyEngine 0 [("by_a", ["a"])]

theorem run_indexes_exact_overwrite :
    let t := indexedOnA.run (fun _ => ⟨0⟩)
      [.put (everyTick 1) [7] (rowOf 1) ⟨3, 0⟩, .put (everyTick 1) [7] (rowOf 2) ⟨5, 0⟩]
    ∀ ix ∈ t.indexes, ∀ k r,
      ((k, r) ∈ ix.store.engine.scan 9 ↔ ∃ bytes doc, (r, bytes) ∈ t.rows.engine.scan 9 ∧
        decodeDocument bytes = some doc ∧ k ∈ entryKeys (fun _ => ⟨0⟩) ix.paths doc r) ∧
      ((ix.store.engine.get 9 k).1 = some r ↔ ∃ bytes doc,
        (t.rows.engine.get 9 r).1 = some bytes ∧
        decodeDocument bytes = some doc ∧ k ∈ entryKeys (fun _ => ⟨0⟩) ix.paths doc r) :=
  run_indexes_exact roomyEngine roomyEngine 0 [("by_a", ["a"])] _ (by decide) 9

-- The same two writes the other way round: the row read is the newer one, the only
-- entry is that of the older one.
theorem stale_put_moves_index :
    let t := indexedOnA.run (fun _ => ⟨0⟩)
      [.put (everyTick 1) [7] (rowOf 2) ⟨5, 0⟩, .put (everyTick 1) [7] (rowOf 1) ⟨3, 0⟩]
    let entry (n : Int64) := indexEntryKey (fun _ => ⟨0⟩) [.int n] [7]
    t.rows.engine.scan 9 = [([7], rowOf 2)] ∧ decodeDocument (rowOf 2) = some [("a", .int 2)] ∧
      (entryKeys (fun _ => ⟨0⟩) ["a"] [("a", .int 2)] [7]) = [entry 2] ∧
      t.indexes.map (fun ix => ix.store.engine.scan 9) = [[(entry 1, [7])]] ∧ entry 1 ≠ entry 2 := by
  refine ⟨by decide, rfl, rfl, by decide, by decide⟩

end Table

end Skaidb.Exec
