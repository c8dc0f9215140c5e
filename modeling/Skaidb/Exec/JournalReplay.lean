import Skaidb.Exec.DatabaseRuns

namespace Skaidb.Exec

open Skaidb.Types Skaidb.Storage Skaidb.Base

def Action.isRename : Action → Bool
  | .renameTmp => true
  | _ => false

def Action.rowId (a : Action) : Option RowId := a.rowWrite.map (fun row => toLex (row.1, row.2.1))

namespace Database

variable {db : Database} (toF64 : Decimal → F64)

-- The rows written by statements that returned success since a journal last took its
-- name. A commit attempt that gets that far starts the list anew.
def acknowledged (db : Database) (since : List RowId) : DbEvent → List RowId
  | .execute session deferred env stmt =>
    let (err, w) := db.execute toF64 session deferred env stmt
    if w.done.any Action.isRename then []
    else if err.isNone then since ++ w.done.filterMap Action.rowId
    else since
  | .crash session deferred env stmt n _ _ =>
    if ((db.execute toF64 session deferred env stmt).2.done.take n).any Action.isRename then [] else since
  | _ => since

structure Observed where
  db : Database
  since : List RowId

def Observed.step (o : Observed) (event : DbEvent) : Observed :=
  ⟨o.db.step toF64 event, if o.db.live.isSome then o.db.acknowledged toF64 o.since event else o.since⟩

def observe (db : Database) (events : List DbEvent) : Observed := events.foldl (Observed.step toF64) ⟨db, []⟩

theorem foldl_observed (o : Observed) (events : List DbEvent) :
    (events.foldl (Observed.step toF64) o).db = o.db.run toF64 events := by
  induction events generalizing o with
  | nil => rfl
  | cons event events ih => exact ih (o.step toF64 event)

theorem journal_act {a : Action} (h : (db.act a).journal ≠ none) : db.journal ≠ none ∨ a.isRename = true := by
  cases a with
  | renameTmp => exact .inr rfl
  | removeJournal => exact absurd rfl h
  | _ => exact .inl h

theorem journal_of_actAll {actions : List Action} (h : (db.actAll actions).journal ≠ none) :
    db.journal ≠ none ∨ actions.any Action.isRename = true := by
  induction actions generalizing db with
  | nil => exact .inl h
  | cons a actions ih =>
    rw [List.any_cons, Bool.or_eq_true]
    obtain hact | hrest := ih (show ((db.act a).actAll actions).journal ≠ none from h)
    · exact (journal_act hact).imp_right .inl
    · exact .inr (.inr hrest)

theorem journal_of_cutAt {actions : List Action} (h : (db.cutAt actions n cut loss).journal ≠ none) :
    db.journal ≠ none ∨ (actions.take n).any Action.isRename = true := by
  refine journal_of_actAll ?_
  intro hnone
  exact h (journal_cutAt_none hnone)

structure Quiet (o : Observed) : Prop where
  standing : o.db.Standing
  since : o.db.journal ≠ none → o.since = []

theorem Dormant.journal_cut (h : Dormant db) {env : Env} {n cut : Nat}
    (hcut : (db.cutAt (db.openDatabase toF64 env).2.done n cut loss).journal ≠ none) : db.journal ≠ none := by
  intro hnone
  obtain ⟨catalog, opens, calls, ho⟩ := h.opens toF64 env
  rw [ho.done_eq] at hcut
  refine hcut (journal_cutAt_none ?_)
  exact (journal_cut_open ho.dirs ho.engine).elim (fun hsame => hsame.trans hnone) And.left

-- While the database is open only a crash can leave a journal: one in a commit, past the rename.
theorem Ready.journal_step {live : Live} (h : Ready db live) (hgood : db.Good toF64 event)
    (hjournal : (db.step toF64 event).journal ≠ none) (since : List RowId) :
    db.acknowledged toF64 since event = [] := by
  have hsome : db.live.isSome = true := by rw [h.live_eq]; rfl
  cases event with
  | crash session deferred env stmt n cut loss =>
    simp only [step, h.live_eq] at hjournal
    obtain hold | hrename := journal_of_cutAt hjournal
    · exact absurd h.journal hold
    · rw [acknowledged, if_pos hrename]
  | execute session deferred env stmt =>
    obtain ⟨hcommit, hallows⟩ := hgood hsome
    obtain ⟨live', hready⟩ := h.execute toF64 hcommit hallows
    simp only [step, h.live_eq] at hjournal
    exact absurd hready.journal hjournal
  | background store op =>
    simp only [step, h.live_eq] at hjournal
    split_ifs at hjournal
    · exact absurd h.journal hjournal
    · exact absurd h.journal hjournal
  | stop loss =>
    simp only [step, h.live_eq] at hjournal
    have hcut : (db.cutAt [] 0 0 loss).journal ≠ none := hjournal
    obtain hold | hrename := journal_of_cutAt hcut
    · exact absurd h.journal hold
    · cases hrename
  | reopen env loss
  | crashReopen env n cut loss => exact absurd h.journal (by simpa only [step, h.live_eq] using hjournal)

theorem Dormant.journal_step (h : Dormant db) (hlive : db.live = none)
    (hgood : db.Good toF64 event) (hjournal : (db.step toF64 event).journal ≠ none) : db.journal ≠ none := by
  have hnone : db.live.isSome = false := by rw [hlive]; rfl
  cases event with
  | reopen env loss =>
    obtain ⟨w, live, heq, hready⟩ := h.reopen toF64 (hgood hnone)
    simp only [step, hlive, heq] at hjournal
    exact absurd hready.journal hjournal
  | crashReopen env n cut loss =>
    simp only [step, hlive] at hjournal
    exact h.journal_cut toF64 hjournal
  | execute session deferred env stmt | crash session deferred env stmt n cut loss | background store op
  | stop loss => simpa only [step, hlive] using hjournal

theorem quiet_step {o : Observed} (h : Quiet o) (hgood : o.db.Good toF64 event) :
    Quiet (o.step toF64 event) := by
  refine ⟨standing_step toF64 h.standing hgood, ?_⟩
  intro hjournal
  have hstanding := h.standing
  cases hlive : o.db.live with
  | some live =>
    rw [Standing, hlive] at hstanding
    simp only [Observed.step, hlive, Option.isSome_some, if_true]
    exact hstanding.journal_step toF64 hgood hjournal o.since
  | none =>
    rw [Standing, hlive] at hstanding
    simp only [Observed.step, hlive, Option.isSome_none, Bool.false_eq_true, if_false]
    exact h.since (hstanding.journal_step toF64 hlive hgood hjournal)

theorem quiet_foldl {o : Observed} {events : List DbEvent} (h : Quiet o)
    (hrun : Along (step toF64) (Good toF64) o.db events) : Quiet (events.foldl (Observed.step toF64) o) := by
  induction events generalizing o with
  | nil => exact h
  | cons event events ih => exact ih (quiet_step toF64 h hrun.1) hrun.2

-- In a run of good steps the next open succeeds, and no row of a journal it finds has
-- had a write acknowledged since that journal was written.
theorem open_replays_harmlessly {opts : EngineOptions} (hopts : opts.ephemeral = false) {events : List DbEvent}
    (hrun : Along (step toF64) (Good toF64) (create opts) events)
    (hdown : ((create opts).run toF64 events).live = none) (env : Env) (loss : Loss)
    (hopen : ((create opts).run toF64 events).Good toF64 (.reopen env loss)) :
    (((create opts).run toF64 events).openDatabase toF64 env).1 = none ∧
      ∀ writes, ((create opts).run toF64 events).readTxnJournal = some writes →
        ∀ e ∈ writes.entries, e.1 ∉ ((create opts).observe toF64 events).since := by
  have hquiet : Quiet ((create opts).observe toF64 events) :=
    quiet_foldl toF64 ⟨standing_create hopts, fun h => absurd rfl h⟩ hrun
  have hdb : ((create opts).observe toF64 events).db = (create opts).run toF64 events :=
    foldl_observed toF64 ⟨create opts, []⟩ events
  have hstanding := hquiet.standing
  rw [hdb, Standing, hdown] at hstanding
  constructor
  · obtain ⟨w, live, heq, -⟩ := hstanding.reopen toF64 (hopen (by rw [hdown]; rfl))
    rw [heq]
  · intro writes hread e he
    have hjournal : ((create opts).run toF64 events).journal ≠ none := by
      intro hnone
      rw [readTxnJournal, hnone] at hread
      cases hread
    rw [hquiet.since (hdb ▸ hjournal)]
    exact List.not_mem_nil

def get (db : Database) (now : UInt64) (table : String) (key : Bytes) : Option Bytes :=
  (db.process (.table table)).bind (fun p => (p.engine.get now key).1)

section Scenario

def steadyEnv (base : Nat) : Env := ⟨fun n => ⟨UInt64.ofNat (base + n), 0⟩, id, fun _ => .refl _⟩

def keepAll : Loss := ⟨fun _ => 1000, 1000, none, []⟩

def smallOptions : EngineOptions := ⟨1000, 4, 8, 0, 0, false⟩

def cell (n : UInt8) : Document := [("v", .bytes [n])]

def noDecimals : Decimal → F64 := fun _ => ⟨0⟩

def twoTables : List DbEvent :=
  [.reopen (steadyEnv 0) keepAll,
    .execute 0 false (steadyEnv 10) (.createTable "a" ["k"] false),
    .execute 0 false (steadyEnv 20) (.createTable "b" ["k"] false),
    .execute 0 false (steadyEnv 30) .begin,
    .execute 0 false (steadyEnv 30) (.write "a" [.put [1] (cell 1)]),
    .execute 0 false (steadyEnv 30) (.write "b" [.put [2] (cell 2)])]

def commitCut : List DbEvent := twoTables ++ [.crash 0 false (steadyEnv 40) .commit 6 0 keepAll]

theorem open_replays_harmlessly_commitCut :
    (((create smallOptions).run noDecimals commitCut).openDatabase noDecimals (steadyEnv 60)).1 = none ∧
      ∀ writes, ((create smallOptions).run noDecimals commitCut).readTxnJournal = some writes →
        ∀ e ∈ writes.entries, e.1 ∉ ((create smallOptions).observe noDecimals commitCut).since :=
  open_replays_harmlessly noDecimals rfl (by decide +kernel) (by decide +kernel) (steadyEnv 60) keepAll
    (by decide +kernel)

-- Another connection drops a table of the write set before the COMMIT, which fails.
def staleJournal : List DbEvent :=
  twoTables ++
    [.execute 1 false (steadyEnv 40) (.dropTable "b" false),
      .execute 0 false (steadyEnv 50) .commit,
      .execute 0 false (steadyEnv 60) (.write "a" [.put [1] (cell 9)])]

-- An index with a table file, and a kill inside the removal of its directory, which comes
-- before the catalog is saved.
def removalCut (unlinked : List DirFile) : List DbEvent :=
  [.reopen (steadyEnv 0) keepAll,
    .execute 0 false (steadyEnv 10) (.createTable "a" ["k"] false),
    .execute 0 false (steadyEnv 20) (.createIndex "i" "a" ["v"] false),
    .execute 0 false (steadyEnv 30) (.write "a" [.put [1] (cell 1)]),
    .background (.index "i") (.flush 0),
    .crash 0 false (steadyEnv 40) (.dropIndex "i" false) 1 0 { keepAll with unlinked }]

-- After the failed COMMIT the database cannot be opened, or, where the table was created
-- again, the open overwrites the write acknowledged since. After the kill the manifest of
-- the index names a missing file and no open succeeds.
theorem stale_journal_open :
    (((create smallOptions).run noDecimals (staleJournal ++ [.stop keepAll])).openDatabase noDecimals
        (steadyEnv 80)).1 = some (.tableNotFound "b") ∧ ((create smallOptions).run noDecimals (staleJournal ++
        [.execute 0 false (steadyEnv 65) (.createTable "b" ["k"] false)])).get 0 "a" [1] =
          some (encodeDocument (cell 9)) ∧ ((create smallOptions).run noDecimals (staleJournal ++
        [.execute 0 false (steadyEnv 65) (.createTable "b" ["k"] false), .stop keepAll,
          .reopen (steadyEnv 80) keepAll])).get 0 "a" [1] = some (encodeDocument (cell 1)) ∧
      (((create smallOptions).run noDecimals (removalCut [])).openDatabase noDecimals (steadyEnv 80)).1 = none ∧
      (((create smallOptions).run noDecimals (removalCut [.table 0])).openDatabase noDecimals (steadyEnv 80)).1 =
        some (.storage "cannot open the engine") := by
  decide +kernel

end Scenario

end Database

end Skaidb.Exec
