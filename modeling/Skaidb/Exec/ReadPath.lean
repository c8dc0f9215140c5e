import Skaidb.Exec.Basics

namespace Skaidb.Exec.ReadPath

open Skaidb.Types

abbrev Answer (Rows : Type) := Except EngineError Rows

-- The clauses of a SELECT, its aliases and NOW() already resolved; `none` among the
-- items is the wildcard, `grouped` says whether it aggregates.
structure Select (Expr : Type) where
  items : List (Option Expr) := [none]
  table : String
  filter : Option Expr := none
  joins : List String := []
  setOps : List String := []
  distinct : Bool := false
  grouped : Bool := false
  having : Option Expr := none
  groupTop : Option Expr := none
  orderBy : List Expr := []
  limitParam : Option Nat := none
  offsetParam : Option Nat := none
  nearest : Option Expr := none
  rrf : Option Nat := none
  rerank : Option String := none
  after : Option (List Expr) := none

-- A request to a search index: a hit list, sorted hits, facets, suggestions or the
-- score breakdown of one row.
inductive Call (Query : Type) where
  | search (table : String) (query : Query) (k : Option Nat)
  | sorted (table : String) (query : Query) (column : String) (k : Nat)
  | aggregate (table : String) (query : Query)
  | suggest (index text : String) (column : Option String) (limit : Nat)
  | explain (table : String) (query : Query) (key : Value)

inductive Statement (Expr : Type) where
  | select (sel : Select Expr)
  | suggest (text index : String) (column : Option String) (limit : Nat)
  | explainScore (select : Select Expr) (key : Value)
  | explain (statement : Statement Expr)
  | describe (table : String) (full : Bool) (sample : Option Nat) (exact : Bool)
  | showTables
  | showIndexes
  | showStatus
  | showGrants (role : Option String)
  | showDatabases
  | write (sql : String)

def statementIsReadOnly {Expr : Type} : Statement Expr → Bool
  | .write _ => false
  | _ => true

section Clauses

variable {Expr : Type} (calls : Expr → List String) (sel : Select Expr)

def isSearchFunc (name : String) : Bool :=
  name ∈ ["match", "match_phrase", "match_prefix", "fuzzy", "wildcard", "regexp", "more_like_this", "search",
    "boosted", "match_cross", "match_best"]

def exprHasFunc (pred : String → Bool) (e : Expr) : Bool := (calls e).any pred

def selectUsesSearch : Bool :=
  sel.filter.any (exprHasFunc calls isSearchFunc) ||
    sel.items.any (fun item => item.any (exprHasFunc calls (· = "score"))) ||
    sel.orderBy.any (exprHasFunc calls (· = "score")) || sel.groupTop.any (exprHasFunc calls (· = "score"))

def checkBoundCounts : Option EngineError :=
  if sel.limitParam.isSome || sel.offsetParam.isSome then
    some (.type "unbound parameter (`?`) in LIMIT/OFFSET")
  else none

-- The clauses `run_search_select` refuses, in its order.
def searchRefusal : Option EngineError :=
  (checkBoundCounts sel).or <|
    if sel.joins ≠ [] ∨ sel.setOps ≠ [] then
      some (.unsupported "MATCH()/SEARCH() cannot be combined with JOIN or UNION")
    else if sel.distinct then some (.unsupported "MATCH()/SEARCH() cannot be combined with DISTINCT")
    else if sel.nearest.isSome then some (.unsupported "MATCH()/SEARCH() cannot be combined with NEAREST")
    else none

def hybridRefusal : Option EngineError :=
  if sel.nearest.isNone then some (.unsupported "RANK BY RRF requires a NEAREST (vector) clause")
  else if sel.joins ≠ [] ∨ sel.setOps ≠ [] ∨ sel.distinct ∨ sel.grouped ∨ sel.having.isSome then
    some (.unsupported "RANK BY RRF cannot be combined with JOIN, UNION, DISTINCT, or GROUP BY")
  else if sel.orderBy ≠ [] then
    some (.unsupported "RANK BY RRF results are ordered by rrf_score(); ORDER BY is not supported")
  else if sel.after.isSome then
    some (.unsupported "AFTER is not supported with RANK BY RRF (fused ranks are not a stable cursor)")
  else checkBoundCounts sel

end Clauses

-- The database behind both paths: how it serves a call from an index, the executors, given
-- the answers to their calls, and what both paths hand to `introspect`. `settle` is what the
-- exclusive path runs behind its answer.
structure Backend (DB Expr Query Rows : Type) where
  dirty : DB → String → Bool
  commit : DB → String → Answer DB
  indexFor : DB → Call Query → Answer String
  answer : DB → String → Call Query → Answer Rows
  runSelect : DB → Select Expr → Answer Rows
  searchRows : DB → (Call Query → Answer Rows) → Select Expr → Answer Rows
  fuse : DB → (Call Query → Answer Rows) → Select Expr → Answer Rows
  filterSearchQuery : Option Expr → Answer (Option Query)
  introspect : DB → Statement Expr → Answer Rows
  settle : DB → Answer Unit

namespace Backend

variable {DB Expr Query Rows : Type} (b : Backend DB Expr Query Rows) (calls : Expr → List String) (db : DB)

def commitIfDirty (name : String) : Answer DB :=
  if b.dirty db name then b.commit db name else .ok db

-- The shared path serves the committed state, the exclusive one commits the serving
-- index first.
def readCommitted (call : Call Query) : Answer Rows := do
  b.answer db (← b.indexFor db call) call

def commitAndRead (call : Call Query) : Answer Rows := do
  let name ← b.indexFor db call
  b.answer (← b.commitIfDirty db name) name call

def runSearchSelect (ask : Call Query → Answer Rows) (sel : Select Expr) : Answer Rows :=
  (searchRefusal sel).elim (b.searchRows db ask sel) .error

def runHybridSelect (ask : Call Query → Answer Rows) (sel : Select Expr) : Answer Rows :=
  (hybridRefusal sel).elim (b.fuse db ask sel) .error

def explainScore (ask : Call Query → Answer Rows) (message : String) (sel : Select Expr)
    (key : Value) : Answer Rows := do
  match ← b.filterSearchQuery sel.filter with
  | none => .error (.type message)
  | some query => ask (.explain sel.table query key)

def executeReadStatement : Statement Expr → Answer Rows
  | .select sel =>
    if selectUsesSearch calls sel then b.runSearchSelect db (b.readCommitted db) sel else b.runSelect db sel
  | .suggest text index column limit => b.readCommitted db (.suggest index text column limit)
  | .explainScore sel key =>
    b.explainScore (b.readCommitted db) "EXPLAIN SCORE needs a MATCH()/SEARCH() predicate in the WHERE" sel key
  | .showDatabases => .error (.unsupported "database statements require a multi-database session")
  | .write _ => .error (.unsupported "statement is not read-only; use the exclusive execution path")
  | stmt => b.introspect db stmt

def run (sel : Select Expr) : Answer Rows :=
  if sel.rrf.isSome then b.runHybridSelect db (b.commitAndRead db) sel
  else if selectUsesSearch calls sel then b.runSearchSelect db (b.commitAndRead db) sel
  else if sel.rerank.isSome then
    .error (.unsupported ("RERANK requires a MATCH()/SEARCH() predicate in WHERE (optionally with " ++
      "NEAREST … RANK BY RRF)"))
  else if sel.after.isSome then
    .error (.unsupported ("AFTER requires a MATCH()/SEARCH() query ordered by score() DESC or a " ++
      "column; for filter-only queries page with `WHERE <col> > <last>` instead"))
  else b.runSelect db sel

-- The statements that write are left to `introspect`.
def executeStatementInner : Statement Expr → Answer Rows
  | .select sel => b.run calls db sel
  | .suggest text index column limit => b.commitAndRead db (.suggest index text column limit)
  | .explainScore sel key =>
    b.explainScore (b.commitAndRead db) "score explain needs a MATCH()/SEARCH() predicate" sel key
  | .showDatabases => .error (.unsupported "database statements require a multi-database session")
  | stmt => b.introspect db stmt

def executeStatement (stmt : Statement Expr) : Answer Rows := do
  let out ← b.executeStatementInner calls db stmt
  b.settle db
  return out

structure Quiet : Prop where
  clean : ∀ name, b.dirty db name = false
  settled : b.settle db = .ok ()

end Backend

inductive SameOutcome {Rows : Type} : Answer Rows → Answer Rows → Prop
  | rows (rs : Rows) : SameOutcome (.ok rs) (.ok rs)
  | kind {e e' : EngineError} (h : e.ctorIdx = e'.ctorIdx) : SameOutcome (.error e) (.error e')

section Agreement

variable {DB Expr Query Rows : Type} {b : Backend DB Expr Query Rows} {calls : Expr → List String}
  {sel : Select Expr}

theorem SameOutcome.refl (r : Answer Rows) : SameOutcome r r := by
  cases r with
  | ok rs => exact .rows rs
  | error e => exact .kind rfl

theorem Backend.Quiet.commitAndRead (h : b.Quiet db) : b.commitAndRead db = b.readCommitted db := by
  funext call
  simp only [Backend.commitAndRead, Backend.readCommitted, Backend.commitIfDirty, h.clean]
  rfl

theorem Backend.Quiet.executeStatement (h : b.Quiet db) (stmt : Statement Expr) :
    b.executeStatement calls db stmt = b.executeStatementInner calls db stmt := by
  rw [Backend.executeStatement, h.settled]
  cases b.executeStatementInner calls db stmt <;> rfl

-- The SELECTs the two dispatchers treat alike: without a fusion, when a RERANK or AFTER
-- comes with a search; with one, when both executors refuse for the same kind of reason.
def Select.Shared (calls : Expr → List String) (sel : Select Expr) : Prop :=
  if sel.rrf.isSome then
    selectUsesSearch calls sel = true ∧ ∃ e ∈ searchRefusal sel, ∃ e' ∈ hybridRefusal sel, e.ctorIdx = e'.ctorIdx
  else selectUsesSearch calls sel = true ∨ sel.rerank = none ∧ sel.after = none

theorem sameOutcome_select (h : b.Quiet db) (hshared : sel.Shared calls) :
    SameOutcome (b.executeReadStatement calls db (.select sel)) (b.run calls db sel) := by
  simp only [Backend.executeReadStatement, Backend.run, h.commitAndRead]
  by_cases hrrf : sel.rrf.isSome
  · rw [Select.Shared, if_pos hrrf] at hshared
    obtain ⟨huses, e, he, e', he', hkind⟩ := hshared
    rw [if_pos huses, if_pos hrrf, Backend.runSearchSelect, Backend.runHybridSelect, he, he']
    exact .kind hkind
  · rw [Select.Shared, if_neg hrrf] at hshared
    rw [if_neg hrrf]
    rcases hshared with huses | ⟨hrerank, hafter⟩
    · rw [if_pos huses, if_pos huses]
      exact .refl _
    · simp only [hrerank, hafter, Option.isSome_none, Bool.false_eq_true, if_false]
      split_ifs <;> exact .refl _

theorem sameOutcome_inner (h : b.Quiet db) (hread : statementIsReadOnly stmt = true)
    (hshared : ∀ sel, stmt = .select sel → sel.Shared calls) :
    SameOutcome (b.executeReadStatement calls db stmt) (b.executeStatementInner calls db stmt) := by
  cases stmt with
  | select sel => exact sameOutcome_select h (hshared sel rfl)
  | explainScore sel key =>
    simp only [Backend.executeReadStatement, Backend.executeStatementInner, Backend.explainScore, h.commitAndRead]
    rcases b.filterSearchQuery sel.filter with e | query | query
    · exact .refl _
    · exact .kind rfl
    · exact .refl _
  | write sql => cases hread
  | _ =>
    simp only [Backend.executeReadStatement, Backend.executeStatementInner, h.commitAndRead]
    exact .refl _

-- A quiet backend whose plain and search executors answer `read` and whose fusion
-- answers `fused`.
def answering (DB Expr Query : Type) (read fused : Answer Rows) : Backend DB Expr Query Rows :=
  { dirty := fun _ _ => false
    commit := fun db _ => .ok db
    indexFor := fun _ _ => .ok ""
    answer := fun _ _ _ => read
    runSelect := fun _ _ => read
    searchRows := fun _ _ _ => read
    fuse := fun _ _ _ => fused
    filterSearchQuery := fun _ => .ok none
    introspect := fun _ _ => read
    settle := fun _ => .ok () }

theorem shared_of_sameOutcome (db : DB) (rows : Rows) (h : ∀ b : Backend DB Expr Query Rows, b.Quiet db →
      SameOutcome (b.executeReadStatement calls db (.select sel)) (b.run calls db sel)) : sel.Shared calls := by
  have hquiet (fused) : (answering DB Expr Query (.ok rows) fused).Quiet db := ⟨fun _ => rfl, rfl⟩
  have hfailing := h _ (hquiet (.error (.type "")))
  have hfusing := h _ (hquiet (.ok rows))
  simp only [Backend.executeReadStatement, Backend.run, Backend.runSearchSelect, Backend.runHybridSelect,
    answering] at hfailing hfusing
  rw [Select.Shared]
  by_cases hrrf : sel.rrf.isSome
  · simp only [hrrf, if_true] at hfailing hfusing ⊢
    by_cases huses : selectUsesSearch calls sel = true
    · simp only [huses, if_true] at hfailing hfusing
      refine ⟨huses, ?_⟩
      rcases hs : searchRefusal sel with _ | e
      · rw [hs] at hfailing
        rcases hy : hybridRefusal sel with _ | e' <;> (rw [hy] at hfailing; cases hfailing)
      · rw [hs] at hfusing
        rcases hy : hybridRefusal sel with _ | e'
        · rw [hy] at hfusing
          cases hfusing
        · rw [hy] at hfusing
          cases hfusing with
          | kind hkind => exact ⟨e, rfl, e', rfl, hkind⟩
    · rw [if_neg huses] at hfailing
      rcases hy : hybridRefusal sel with _ | e' <;> (rw [hy] at hfailing; cases hfailing)
  · simp only [hrrf, Bool.false_eq_true, if_false] at hfailing ⊢
    by_contra hnot
    obtain ⟨huses, hclause⟩ := not_or.mp hnot
    split_ifs at hfailing with hrerank hafter
    · cases hfailing
    · cases hfailing
    · exact hclause ⟨by simpa using hrerank, by simpa using hafter⟩

def reranked : Select String := { table := "docs", rerank := some "cross-encoder" }

def fusion : Select String := { table := "docs", filter := some "match", nearest := some "embedding", rrf := some 60 }

end Agreement

end Skaidb.Exec.ReadPath
