import Skaidb.Base.OrdMap
import Skaidb.Base.Results
import Skaidb.Exec.Basics

namespace Skaidb.Exec

open Skaidb.Base Skaidb.Types List

section Assign

-- A part that is missing or no document becomes an empty document on the way down.
def setPathParts (val : Value) : Document → List String → Document
  | doc, [] => doc
  | doc, [last] => doc.insert last val
  | doc, head :: rest =>
    match doc.get head with
    | some (.document child) => doc.insert head (.document (setPathParts val child rest))
    | _ => doc.insert head (.document (setPathParts val [] rest))

def setPath (doc : Document) (path : String) (val : Value) : Document :=
  setPathParts val doc ((Document.segments path.toList).map String.ofList)

def primaryKeyBytes (toF64 : Decimal → F64) (pk : List String) (doc : Document) : Except EngineError Bytes := do
  let values ← pk.mapM (fun col => match doc.get col with
    | none | some .null =>
      throw (.constraint ("primary key column " ++ col.quote ++ " must not be null or missing"))
    | some v => pure v)
  return (Value.array values).encodeKey toF64

end Assign

-- An UPDATE: the key columns of its table, whether that is a time-series table, and the
-- assignments, whose expressions `eval` evaluates on a row as it was.
structure Update (Expr : Type) where
  timeseries : Bool
  primaryKey : List String
  assignments : List (String × Expr)
  eval : Expr → Document → Except EngineError Value
  toF64 : Decimal → F64

structure Move where
  oldKey : Bytes
  newKey : Bytes
  newDoc : Document

section Run

variable {Expr : Type} (upd : Update Expr)

def Update.image (doc : Document) : Except EngineError Document :=
  upd.assignments.foldlM (fun new a => return setPath new a.1 (← upd.eval a.2 doc)) doc

def Update.move (row : Bytes × Document) : Except EngineError Move := do
  let newDoc ← upd.image row.2
  return ⟨row.1, ← primaryKeyBytes upd.toF64 upd.primaryKey newDoc, newDoc⟩

-- The new row is put before the old one is deleted.
def moveRow (rows : OrdMap Bytes Document) (m : Move) : OrdMap Bytes Document :=
  if m.newKey = m.oldKey then rows.insert m.newKey m.newDoc
  else (rows.insert m.newKey m.newDoc).erase m.oldKey

def updateRows : OrdMap Bytes Document → List (Bytes × Document) → Except EngineError (OrdMap Bytes Document)
  | rows, [] => .ok rows
  | rows, row :: found => do updateRows (moveRow rows (← upd.move row)) found

-- `found` are the rows the gather returned, in its order.
def runUpdate (found : Except EngineError (List (Bytes × Document))) (rows : OrdMap Bytes Document) :
    Except EngineError (Nat × OrdMap Bytes Document) :=
  if upd.timeseries then .error (.unsupported "time-series tables are append-only; UPDATE is not supported")
  else do
    let found ← found
    return (found.length, ← updateRows upd rows found)

end Run

section Moves

variable {rows rows' : OrdMap Bytes Document} {moves : List Move}

theorem get?_moveRow {rows : OrdMap Bytes Document} {m : Move} : (moveRow rows m).get? key =
    if key = m.newKey then some m.newDoc else if key = m.oldKey then none else rows.get? key := by
  unfold moveRow
  split_ifs <;> simp_all

theorem get?_moves (hdistinct : (moves.map Move.newKey).Nodup)
    (happart : moves.Pairwise (fun a b => a.newKey ≠ b.oldKey)) :
    (moves.foldl moveRow rows).get? key = some doc ↔ (∃ m ∈ moves, m.newKey = key ∧ m.newDoc = doc) ∨
      (∀ m ∈ moves, m.newKey ≠ key) ∧ (∀ m ∈ moves, m.oldKey ≠ key) ∧ rows.get? key = some doc := by
  induction moves generalizing rows with
  | nil => simp
  | cons m moves ih =>
    obtain ⟨hfresh, hdistinct⟩ := nodup_cons.mp hdistinct
    obtain ⟨hm, happart⟩ := pairwise_cons.mp happart
    rw [foldl_cons, ih hdistinct happart, get?_moveRow]
    by_cases hnew : key = m.newKey
    · grind
    · grind

-- When a row moves onto the old key of a later row, the later row's delete removes it.
theorem exists_lost (hdistinct : (moves.map Move.newKey).Nodup)
    (hmeet : ¬ moves.Pairwise (fun a b => a.newKey ≠ b.oldKey)) :
    ∃ m ∈ moves, (moves.foldl moveRow rows).get? m.newKey = none := by
  induction moves generalizing rows with
  | nil => exact absurd Pairwise.nil hmeet
  | cons m moves ih =>
    obtain ⟨hfresh, hdistinct⟩ := nodup_cons.mp hdistinct
    by_cases hlater : moves.Pairwise (fun a b => a.newKey ≠ b.oldKey)
    · obtain ⟨b, hb, heq⟩ : ∃ b ∈ moves, m.newKey = b.oldKey := by simpa [hlater] using hmeet
      have hnew : ∀ c ∈ moves, c.newKey ≠ m.newKey := fun c hc heq => hfresh (mem_map.mpr ⟨c, hc, heq⟩)
      refine ⟨m, mem_cons_self, ?_⟩
      cases hget : ((m :: moves).foldl moveRow rows).get? m.newKey with
      | none => rfl
      | some doc =>
        rcases (get?_moves hdistinct hlater).mp hget with ⟨c, hc, hkey, -⟩ | ⟨-, hold, -⟩
        · exact absurd hkey (hnew c hc)
        · exact absurd heq.symm (hold b hb)
    · obtain ⟨c, hc, hlost⟩ := ih hdistinct hlater
      exact ⟨c, mem_cons_of_mem m hc, hlost⟩

end Moves

section Exact

variable {Expr : Type} {upd : Update Expr} {found : List (Bytes × Document)} {moves : List Move}
  {rows rows' : OrdMap Bytes Document}

theorem updateRows_eq (h : updateRows upd rows found = .ok rows') :
    ∃ moves, found.mapM upd.move = .ok moves ∧ moves.map Move.oldKey = found.map Prod.fst ∧
      rows' = moves.foldl moveRow rows := by
  induction found generalizing rows with
  | nil =>
    cases h
    exact ⟨[], rfl, rfl, rfl⟩
  | cons row found ih =>
    obtain ⟨m, hm, hrest⟩ := bind_eq_ok_iff.mp h
    obtain ⟨moves, hmoves, hold, rfl⟩ := ih hrest
    refine ⟨m :: moves, ?_, ?_, rfl⟩
    · rw [mapM_cons, hm, hmoves]
      rfl
    · simp only [Update.move, bind_eq_ok_iff, pure_eq_ok_iff] at hm
      obtain ⟨doc, -, key, -, rfl⟩ := hm
      rw [map_cons, hold, map_cons]

def shiftIds (step : Int64) : Update Int64 :=
  { timeseries := false
    primaryKey := ["id"]
    assignments := [("id", step)]
    eval := fun step doc => match doc.get "id" with
      | some (.int id) => .ok (.int (id + step))
      | _ => .ok .null
    toF64 := fun _ => ⟨0⟩ }

def idRow (id : Int64) : Bytes × Document := ((Value.array [.int id]).encodeKey (fun _ => ⟨0⟩), [("id", .int id)])

def idTable (ids : List Int64) : OrdMap Bytes Document :=
  ids.foldl (fun rows id => rows.insert (idRow id).1 (idRow id).2) .empty

def everyRow : Bytes × Document → Bool := fun _ => true

def downwards : List Move := [⟨(idRow 1).1, (idRow 0).1, (idRow 0).2⟩, ⟨(idRow 2).1, (idRow 1).1, (idRow 1).2⟩]

end Exact

end Skaidb.Exec
