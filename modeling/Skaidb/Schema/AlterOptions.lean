import Skaidb.Schema.Rename

namespace Skaidb.Schema

open Skaidb.Base Skaidb.Exec Function

-- A database with the TTL of each open engine, and the retention and the out-of-order
-- window of each open time-series store.
structure OpenDatabase where
  catalog : Catalog
  ttls : String → Option (Option Nat)
  stores : String → Option (Option Int × Int)

def setLiveOption (table option value : String) (x : TableDef × Option (Option Nat)) :
    Except EngineError (TableDef × Option (Option Nat)) :=
  (setTableOption table option value x.1).map
    (fun d => (d, if option = "ttl" then x.2.map (fun _ => d.engineTtl) else x.2))

def setLiveTsOption (option value : String) (x : TsTableDef × Option (Option Int × Int)) :
    Except EngineError (TsTableDef × Option (Option Int × Int)) :=
  (setTsOption option value x.1).map (fun d => (d, x.2.map (fun store =>
    if option = "retention" then (d.retentionMs, store.2) else (store.1, d.oooWindowMs))))

section Accepted

variable {δ : Type} (set : String → String → δ → Except EngineError δ)

def accepted : List (String × String) → δ → List (String × String)
  | [], _ => []
  | o :: rest, d =>
    match set o.1 o.2 d with
    | .error _ => []
    | .ok d' => o :: accepted rest d'

-- The options before the first that is refused lead back to where they began.
def Undone (options : List (String × String)) (d : δ) : Prop :=
  (accepted set options d).foldl (fun d o => (set o.1 o.2 d).toOption.getD d) d = d

theorem setOptions_accepted (options : List (String × String)) (d : δ) : (setOptions set options d).1 =
    (accepted set options d).foldl (fun d o => (set o.1 o.2 d).toOption.getD d) d := by
  induction options generalizing d with
  | nil => rfl
  | cons o rest ih =>
    rw [setOptions, accepted]
    cases hset : set o.1 o.2 d with
    | error e => rfl
    | ok d' => simp [hset, ih, Except.toOption]

end Accepted

private theorem insert_self {m : OrdMap String ν} (h : m.get? key = some value) : m.insert key value = m := by
  refine OrdMap.ext_entries (OrdMap.eq_of_lookup_eq (m.insert key value).sorted m.sorted ?_)
  intro other
  refine (OrdMap.get?_insert m key value other).trans ?_
  split_ifs with hkey
  · rw [hkey, ← h]
    rfl
  · rfl

namespace OpenDatabase

variable (db : OpenDatabase) (table : String) (options : List (String × String))

def alterSet : OpenDatabase × Except EngineError Unit :=
  match db.catalog.timeseries.get? table with
  | some d =>
    let result := setOptions setLiveTsOption options (d, db.stores table)
    ({ db with
      catalog := { db.catalog with timeseries := db.catalog.timeseries.insert table result.1.1 }
      stores := update db.stores table result.1.2 }, result.2)
  | none =>
    match db.catalog.tables.get? table with
    | none => (db, .error (.tableNotFound table))
    | some d =>
      if isSystemTable table then (db, .error (.constraint
        ("'" ++ table ++ "' is a system table: placement/witness options are not allowed")))
      else
        let result := setOptions (setLiveOption table) options (d, db.ttls table)
        ({ db with
          catalog := { db.catalog with tables := db.catalog.tables.insert table result.1.1 }
          ttls := update db.ttls table result.1.2 }, result.2)

-- What the statement finds is a time-series table, or an ordinary one that is not of the system.
def Untouched : Prop :=
  (∀ d, db.catalog.timeseries.get? table = some d → Undone setLiveTsOption options (d, db.stores table)) ∧
    (db.catalog.timeseries.get? table = none → isSystemTable table = false →
      ∀ d, db.catalog.tables.get? table = some d → Undone (setLiveOption table) options (d, db.ttls table))

private theorem insert_eq_self_iff {m : OrdMap String ν} {f : String → β} (h : m.get? key = some value) (x : ν × β) :
    m.insert key x.1 = m ∧ update f key x.2 = f ↔ x = (value, f key) := by
  constructor
  · rintro ⟨hm, hf⟩
    have hget : some x.1 = some value := by rw [← h, ← hm, OrdMap.get?_insert, if_pos rfl]
    exact Prod.ext (Option.some.inj hget) ((update_self key x.2 f).symm.trans (congrFun hf key))
  · rintro rfl
    exact ⟨insert_self h, update_eq_self key f⟩

theorem alterSet_eq_iff : (db.alterSet table options).1 = db ↔ db.Untouched table options := by
  unfold alterSet Untouched
  split
  case h_1 d hd =>
    have hsame := insert_eq_self_iff (f := db.stores) hd (setOptions setLiveTsOption options (d, db.stores table)).1
    simp only [hd, Undone, ← setOptions_accepted, Option.some.injEq, forall_eq', ← hsame, reduceCtorEq,
      false_implies, and_true]
    refine ⟨fun heq => ⟨congrArg (·.catalog.timeseries) heq, congrArg stores heq⟩, ?_⟩
    rintro ⟨hm, hf⟩
    simp only [hm, hf]
  case h_2 hd =>
    split
    case h_1 hdt => simp [hd, hdt]
    case h_2 d hdt =>
      split_ifs with hsys
      · simp [hd, hsys]
      · have hsame := insert_eq_self_iff (f := db.ttls) hdt
          (setOptions (setLiveOption table) options (d, db.ttls table)).1
        have hsys' : isSystemTable table = false := by simpa using hsys
        simp only [hd, hdt, hsys', Undone, ← setOptions_accepted, Option.some.injEq, forall_eq', ← hsame, reduceCtorEq,
          false_implies, implies_true, true_and, true_implies]
        refine ⟨fun heq => ⟨congrArg (·.catalog.tables) heq, congrArg ttls heq⟩, ?_⟩
        rintro ⟨hm, hf⟩
        simp only [hm, hf]

def plain : TableDef := ⟨["id"], none, false, none, [], true, none⟩

def single : OpenDatabase :=
  ⟨{ Catalog.default with tables := OrdMap.empty.insert "t" plain }, update (fun _ => none) "t" (some none),
    fun _ => none⟩

end OpenDatabase

end Skaidb.Schema
