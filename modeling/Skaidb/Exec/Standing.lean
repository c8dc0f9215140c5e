import Skaidb.Exec.Traces

namespace Skaidb.Exec

open Skaidb.Types Skaidb.Storage Skaidb.Base List Option Work Catalog Skaidb.Exec.Action

def Catalog.has (c : Catalog) : Store → Bool
  | .table t => (c.tables.get? t).isSome
  | .index name => (c.indexes.get? name).isSome

theorem Catalog.mem_stores {c : Catalog} : store ∈ c.stores ↔ c.has store = true := by
  rw [stores, List.mem_append, List.mem_map, List.mem_map]
  cases store with
  | table t => simp [has, Option.isSome_iff_exists, OrdMap.get?_eq_some_iff]
  | index name => simp [has, isSome_iff_exists, OrdMap.get?_eq_some_iff]

namespace Action

def silent : Action → Bool
  | .engine _ _ | .removeDir _ => false
  | _ => true

def savesCatalog : Action → Bool
  | .saveCatalog _ => true
  | _ => false

def onJournal : Action → Bool
  | .writeTmp _ | .syncTmp | .renameTmp | .removeJournal => true
  | _ => false

end Action

namespace Database

variable {db : Database}

section Silent

theorem history_openDir : (db.act (.openDir store wall)).history other = db.history other := by
  by_cases heq : other = store
  · subst heq
    rw [history, act, dirs_setDir_self, map_some, getD_some, System.history_reopen, history]
    cases db.dirs other <;> rfl
  · rw [history, act, dirs_setDir_of_ne heq]
    rfl

theorem history_silent {a : Action} (h : a.silent = true) : (db.act a).history store = db.history store := by
  cases a with
  | openDir other wall => exact history_openDir
  | engine | removeDir => cases h
  | _ => rfl

theorem history_actAll_silent (h : ∀ a ∈ actions, a.silent = true) (store : Store) :
    (db.actAll actions).history store = db.history store :=
  kept_actAll (f := fun db => db.history store) (fun _ _ ha => history_silent ha) h

theorem allows_silent (h : ∀ a ∈ actions, a.silent = true) : db.Allows actions := by
  induction actions generalizing db with
  | nil => trivial
  | cons a actions ih =>
    obtain ⟨ha, hrest⟩ := forall_mem_cons.mp h
    refine ⟨?_, ih hrest⟩
    cases a with
    | engine => cases ha
    | _ => trivial

theorem isOpen_openDir (h : db.Core) (store : Store) (wall : UInt64) :
    (db.act (.openDir store wall)).isOpen store = true := by
  obtain ⟨p, hp⟩ := h.serves_opened.inv.reopen_up
  exact isOpen_iff.mpr ⟨_, p, by rw [act, dirs_setDir_self], hp⟩

theorem isOpen_openDir_of_isOpen (h : db.isOpen other = true) :
    (db.act (.openDir store wall)).isOpen other = true := by
  obtain ⟨s, p, hs, hup⟩ := isOpen_iff.mp h
  by_cases heq : other = store
  · subst heq
    refine isOpen_iff.mpr ⟨s, p, ?_, hup⟩
    rw [act, dirs_setDir_self, hs, getD_some]
    exact congrArg some (by simp only [System.step, hup])
  · exact isOpen_iff.mpr ⟨s, p, by rw [act, dirs_setDir_of_ne heq, hs], hup⟩

end Silent

section Remove

def removeDirs (stores : List Store) : List Action := stores.map Action.removeDir

theorem isOpen_removeDirs {stores : List Store} (hne : store ∉ stores)
    (h : db.isOpen store = true) : (db.actAll (removeDirs stores)).isOpen store = true := by
  induction stores generalizing db with
  | nil => exact h
  | cons other stores ih =>
    obtain ⟨hfirst, hrest⟩ := not_or.mp (fun hmem => hne (mem_cons.mpr hmem))
    refine ih hrest ?_
    rw [isOpen, process, act, dirs_setDir_of_ne hfirst]
    exact h

theorem removeDirs_actAll (db : Database) (stores : List Store) :
    (db.actAll (removeDirs stores)).live = db.live ∧
      (db.actAll (removeDirs stores)).catalogFile = db.catalogFile ∧
      (db.actAll (removeDirs stores)).journal = db.journal := by
  induction stores generalizing db with
  | nil => exact ⟨rfl, rfl, rfl⟩
  | cons other stores ih => exact ih (db.act (.removeDir other))

theorem allows_removeDirs (db : Database) (stores : List Store) : db.Allows (removeDirs stores) := by
  induction stores generalizing db with
  | nil => trivial
  | cons other stores ih => exact ⟨trivial, ih _⟩

end Remove

section Crash

variable {loss : Loss}

theorem loadCatalog_crash (h : loss.catalog = none) : (db.crash during cut loss).loadCatalog = db.loadCatalog := by
  rw [loadCatalog, loadCatalog, crash]
  cases db.catalogFile with
  | none => rfl
  | some f =>
    obtain ⟨contents, synced⟩ := f
    cases contents <;> cases synced <;> simp [File.crash, h]

theorem history_crash (h : db.Core) (hidle : ∀ a ∈ during, a.onEngine = false) :
    ((db.crash during cut loss).history store).records <+: (db.history store).records ∧
      (db.history store).durable ≤ ((db.crash during cut loss).history store).durable ∧
      ((db.crash during cut loss).history store).synced = (db.history store).synced := by
  have hop : interrupted during cut store = (.clearReadCache, 0) := by
    unfold interrupted
    split
    · case h_1 other op => exact absurd (hidle _ rfl) (by simp [onEngine])
    · rfl
  have hcrash : (db.crash during cut loss).dirs store = (db.dirs store).map (crashDir during cut loss store) := rfl
  cases hdir : db.dirs store with
  | none =>
    have hsame : (db.crash during cut loss).history store = db.history store := by
      rw [history, hcrash, hdir, history, hdir]
      rfl
    rw [hsame]
    exact ⟨prefix_rfl, le_rfl, rfl⟩
  | some s =>
    have hinv := (h.serves store s hdir).inv
    rw [hdir] at hcrash
    rw [history_of_dir hcrash, history_of_dir hdir, crashDir, history_unlinkAll, crashEvent, hop]
    exact ⟨(System.records_idle hinv rfl (System.safe_crash s.safe_clearReadCache)).1,
      hinv.durable_crash _ _ _, s.synced_crash⟩

end Crash

section Opens

def isOpenDir : Action → Bool
  | .openDir _ _ => true
  | _ => false

theorem silent_of_isOpenDir {a : Action} (h : isOpenDir a = true) : a.silent = true := by
  cases a <;> first | rfl | cases h

theorem actAll_opens (db : Database) (h : ∀ a ∈ opens, isOpenDir a = true) :
    (db.actAll opens).live = db.live ∧ (db.actAll opens).journal = db.journal ∧
      (db.actAll opens).catalogFile = db.catalogFile ∧
      ∀ store, db.isOpen store = true → (db.actAll opens).isOpen store = true := by
  induction opens generalizing db with
  | nil => exact ⟨rfl, rfl, rfl, fun _ hs => hs⟩
  | cons a opens ih =>
    obtain ⟨ha, hrest⟩ := forall_mem_cons.mp h
    cases a with
    | openDir store wall =>
      obtain ⟨hlive, hjournal, hfile, hopen⟩ := ih (db.act (.openDir store wall)) hrest
      exact ⟨hlive, hjournal, hfile, fun other hs => hopen other (isOpen_openDir_of_isOpen hs)⟩
    | _ => cases ha

end Opens

end Database

open Database in
theorem Work.openDirs_spec (env : Env) (stores : List Store) (w : Work) (hcore : w.db.Core) :
    ∃ w' opens, openDirs env stores w = (none, w') ∧ w.Did w' opens ∧
      (∀ a ∈ opens, isOpenDir a = true) ∧ ∀ store ∈ stores, w'.db.isOpen store = true := by
  induction stores generalizing w with
  | nil => exact ⟨w, [], rfl, .refl w, by simp, by simp⟩
  | cons store stores ih =>
    obtain ⟨w', opens, heq, hdid, hopens, hopen⟩ :=
      ih (w.perform (.openDir store (w.tick env).wall)) (hcore.act (a := .openDir store (w.tick env).wall) trivial)
    have hfirst : (w.perform (.openDir store (w.tick env).wall)).db.isOpen store = true :=
      isOpen_openDir hcore store _
    obtain ⟨p, hp⟩ := isSome_iff_exists.mp hfirst
    refine ⟨w', .openDir store (w.tick env).wall :: opens, ?_, (Did.perform w _).trans hdid, ?_, ?_⟩
    · rw [openDirs]
      simp only [hp]
      exact heq
    · intro a ha
      obtain rfl | ha := mem_cons.mp ha
      · rfl
      · exact hopens a ha
    · intro other hother
      obtain rfl | hother := mem_cons.mp hother
      · rw [hdid.db]
        exact (actAll_opens _ hopens).2.2.2 other hfirst
      · exact hopen other hother

namespace Database

section Reopen

variable {db : Database} (toF64 : Decimal → F64) (env : Env) {catalog : Catalog}

-- What an open does: it loads the catalog, opens the engines, applies a journal it finds
-- and retires it.
def opening (catalog : Catalog) (opens calls : List Action) : List Action :=
  (.start catalog :: opens) ++ (calls ++ [.removeJournal])

-- One open that ran to its end: the calls that redo a journal are all that it writes.
structure Opens (db : Database) (catalog : Catalog) (opens calls : List Action) : Prop where
  file : db.loadCatalog = .ok catalog
  returns : (db.openDatabase toF64 env).1 = none
  done_eq : (db.openDatabase toF64 env).2.done = opening catalog opens calls
  db_eq : (db.openDatabase toF64 env).2.db = db.actAll (opening catalog opens calls)
  dirs : ∀ a ∈ opens, isOpenDir a = true
  engine : ∀ a ∈ calls, a.onEngine = true
  isOpen : ∀ store ∈ catalog.stores, ((db.act (.start catalog)).actAll opens).isOpen store = true
  clean : db.readTxnJournal = none → calls = []
  redo : ∀ writes, db.readTxnJournal = some writes →
    calls.filterMap Action.rowWrite = writes.entries.map Work.entryRow ∧
    (db.Allows (opening catalog opens calls) →
      ∀ e ∈ writes.entries, (db.actAll (opening catalog opens calls)).Settled (Work.entryTable e))

theorem openDatabase_spec (hcore : db.Core) (hfile : db.loadCatalog = .ok catalog)
    (htables : ∀ writes, db.readTxnJournal = some writes →
      ∀ e ∈ writes.entries, (catalog.tables.get? (entryTable e)).isSome = true) :
    ∃ opens calls, db.Opens toF64 env catalog opens calls := by
  have hstart := Did.perform (ofDatabase db) (.start catalog)
  have hcore' : (db.act (.start catalog)).Core := hcore.act trivial
  obtain ⟨w, opens, heq, hdid, hopens, hopen⟩ :=
    openDirs_spec env catalog.stores ((ofDatabase db).perform (.start catalog)) hcore'
  have hdb : w.db = (db.act (.start catalog)).actAll opens := hdid.db
  obtain ⟨hlive, hsame, -, -⟩ := actAll_opens (db.act (.start catalog)) hopens
  have hread : w.db.readTxnJournal = db.readTxnJournal := by
    rw [readTxnJournal, hdb, hsame]
    rfl
  cases hjournal : db.readTxnJournal with
  | none =>
    have hall := hstart.trans (hdid.trans (Did.perform w .removeJournal))
    have hreturns : db.openDatabase toF64 env = (none, w.perform .removeJournal) := by
      rw [openDatabase, Work.openDatabase, show (Work.ofDatabase db).db.loadCatalog = _ from hfile]
      simp only [heq, hread, hjournal]
    exact ⟨opens, [], hfile, by rw [hreturns], by rw [hreturns]; exact hall.done_eq,
      by rw [hreturns]; exact hall.db_eq, hopens, by simp, hdb ▸ hopen, fun _ => rfl, by simp [hjournal]⟩
  | some writes =>
    have htables := htables writes hjournal
    have htables' : ∀ e ∈ writes.entries, w.db.hasTable (entryTable e) = true := by
      intro e he
      rw [hasTable, Database.catalog, hdb, hlive]
      exact htables e he
    obtain ⟨w', calls, happly, hdid', hengine, hrows, hsettled⟩ :=
      applyTxnWrites_spec env toF64 false htables'
    have hall := hstart.trans (hdid.trans (hdid'.trans (Did.perform w' .removeJournal)))
    have hreturns : db.openDatabase toF64 env = (none, w'.perform .removeJournal) := by
      rw [openDatabase, Work.openDatabase, show (Work.ofDatabase db).db.loadCatalog = _ from hfile]
      simp only [heq, hread, hjournal, happly]
    refine ⟨opens, calls, hfile, by rw [hreturns], by rw [hreturns]; exact hall.done_eq,
      by rw [hreturns]; exact hall.db_eq, hopens, hengine, hdb ▸ hopen, by simp [hjournal], ?_⟩
    intro writes' heq'
    obtain rfl := Option.some.inj (hjournal.symm.trans heq')
    refine ⟨hrows, fun hgood e he => ?_⟩
    have hafter : (db.act (.start catalog)).Allows (opens ++ (calls ++ [.removeJournal])) := hgood.2
    obtain ⟨hgoodOpens, hgoodCalls⟩ := allows_append.mp hafter
    rw [← hdb] at hgoodCalls
    have hcoreW : w.db.Core := hdb ▸ hcore'.actAll hgoodOpens
    have hsynced := hsettled rfl hcoreW (allows_append.mp hgoodCalls).1
      (fun e he => hopen _ (mem_stores.mpr (htables e he))) e he
    exact hall.db_eq ▸ hsynced

end Reopen

section Commit

variable {db : Database} (toF64 : Decimal → F64) (env : Env) (deferred : Bool) {writes : TxnWrites}

def journalling (session : Nat) (writes : TxnWrites) : List Action :=
  [.setTxn session none, .writeTmp (Journal.encode writes), .syncTmp, .renameTmp]

theorem silent_journalling : ∀ a ∈ journalling session writes, a.silent = true := by
  simp [journalling, silent]

theorem actAll_journalling {db : Database} :
    (db.actAll (journalling session writes)).journal = some ⟨Journal.encode writes, true⟩ ∧
      (db.actAll (journalling session writes)).catalog = db.catalog ∧
      (db.actAll (journalling session writes)).dirs = db.dirs ∧
      (db.actAll (journalling session writes)).catalogFile = db.catalogFile := by
  refine ⟨rfl, ?_, rfl, rfl⟩
  cases hlive : db.live <;> simp [catalog, actAll, journalling, act, hlive]

theorem commit_spec (htxn : db.txn session = some writes)
    (htables : ∀ e ∈ writes.entries, db.hasTable (entryTable e) = true) :
    ∃ w calls, db.execute toF64 session deferred env .commit = (none, w) ∧
      (ofDatabase db).Did w (journalling session writes ++ (calls ++ [.removeJournal])) ∧
      (∀ a ∈ calls, a.onEngine = true) ∧ calls.filterMap rowWrite = writes.entries.map entryRow ∧
      (deferred = false → db.Core → db.Allows w.done →
        (∀ e ∈ writes.entries, db.isOpen (.table (entryTable e)) = true) →
        ∀ e ∈ writes.entries, w.db.Settled (entryTable e)) := by
  obtain ⟨-, hcatalog, hdirs, -⟩ := actAll_journalling
  have hdid : (ofDatabase db).Did
      (((ofDatabase db).perform (.setTxn session none)).writeTxnJournal writes)
      (journalling session writes) := ⟨rfl, rfl⟩
  have htables' : ∀ e ∈ writes.entries,
      (((ofDatabase db).perform (.setTxn session none)).writeTxnJournal writes).db.hasTable
        (entryTable e) = true := by
    intro e he
    rw [hdid.db, hasTable, show (ofDatabase db).db = db from rfl, hcatalog]
    exact htables e he
  obtain ⟨w, calls, happly, hdid', hengine, hrows, hsettled⟩ :=
    applyTxnWrites_spec env toF64 deferred htables'
  have hall := hdid.trans (hdid'.trans (Did.perform w .removeJournal))
  refine ⟨w.perform .removeJournal, calls, ?_, hall, hengine, hrows, ?_⟩
  · rw [execute, Work.execute, Work.commit, show (Work.ofDatabase db).db.txn session = _ from htxn]
    simp only [happly]
  · intro hinline hcore hgood hopen
    rw [hall.done_eq] at hgood
    obtain ⟨hgoodJournal, hgoodCalls⟩ := allows_append.mp hgood
    refine hsettled hinline (hcore.actAll hgoodJournal) (allows_append.mp hgoodCalls).1 ?_
    intro e he
    have hprocess : (db.actAll (journalling session writes)).isOpen (.table (entryTable e)) =
        db.isOpen (.table (entryTable e)) := by
      rw [isOpen, isOpen, process, process, hdirs]
    exact hprocess.trans (hopen e he)

end Commit

-- A database between two statements: its catalog is saved and its engines are open, and
-- there is no journal.
structure Ready (db : Database) (live : Live) : Prop where
  core : db.Core
  live_eq : db.live = some live
  file : db.loadCatalog = .ok live.catalog
  isOpen : ∀ store ∈ live.catalog.stores, db.isOpen store = true
  journal : db.journal = none

namespace Ready

variable {db : Database} {live : Live}

section

variable (h : Ready db live)

include h

theorem catalog_eq : db.catalog = live.catalog := by
  rw [Database.catalog, h.live_eq]
  rfl

theorem calls (hgood : db.Allows actions)
    (hengine : ∀ a ∈ actions, a.onEngine = true) : Ready (db.actAll actions) live := by
  obtain ⟨hlive, hfile, hjournal⟩ := files_actAll db hengine
  refine ⟨h.core.actAll hgood, hlive.trans h.live_eq, ?_, ?_, hjournal.trans h.journal⟩
  · rw [loadCatalog, hfile]
    exact h.file
  · intro store hs
    exact isOpen_actAll hengine (h.isOpen store hs)

theorem setTxn (session : Nat) (txn : Option TxnWrites) :
    Ready (db.act (.setTxn session txn)) { live with txns := Function.update live.txns session txn } := by
  refine { h with core := h.core.act trivial, live_eq := ?_ }
  rw [act, h.live_eq]
  rfl

theorem saveCatalog : Ready (db.act (.saveCatalog live.catalog)) live :=
  { h with core := h.core.act trivial, file := rfl }

theorem change {db' : Database} {catalog : Catalog} (hcore : db'.Core)
    (hlive : db'.live = db.live.map (fun l => { l with catalog }))
    (hfile : db'.loadCatalog = .ok catalog) (hjournal : db'.journal = db.journal)
    (hopen : ∀ store, catalog.has store = true → db'.isOpen store = true) :
    Ready db' { live with catalog } := by
  refine ⟨hcore, by rw [hlive, h.live_eq]; rfl, hfile, ?_, hjournal.trans h.journal⟩
  intro store hs
  exact hopen store (mem_stores.mp hs)

theorem has_isOpen (hs : live.catalog.has store = true) : db.isOpen store = true :=
  h.isOpen store (mem_stores.mpr hs)

theorem addStore {catalog : Catalog}
    (hhas : ∀ store, store ≠ added → catalog.has store = true → live.catalog.has store = true) :
    Ready (db.actAll [.openDir added wall, .setCatalog catalog, .saveCatalog catalog]) { live with catalog } := by
  refine h.change (h.core.actAll ⟨trivial, trivial, trivial, trivial⟩) rfl rfl rfl ?_
  intro store hs
  show (db.act (.openDir added wall)).isOpen store = true
  by_cases heq : store = added
  · rw [heq]
    exact isOpen_openDir h.core _ wall
  · exact isOpen_openDir_of_isOpen (h.has_isOpen (hhas store heq hs))

theorem createTable (name : String) (tableDef : TableDef) (wall : UInt64) :
    Ready (db.actAll [.openDir (.table name) wall,
        .setCatalog { live.catalog with tables := live.catalog.tables.insert name tableDef },
        .saveCatalog { live.catalog with tables := live.catalog.tables.insert name tableDef }])
      { live with catalog := { live.catalog with tables := live.catalog.tables.insert name tableDef } } := by
  refine h.addStore fun store heq hs => ?_
  cases store with
  | table t =>
    have hne : t ≠ name := fun hn => heq (by rw [hn])
    simpa [has, hne] using hs
  | index ix => exact hs

theorem createIndex (name : String) (indexDef : IndexDef) (wall : UInt64)
    {calls : List Action} (hengine : ∀ a ∈ calls, a.onEngine = true) :
    let catalog := { live.catalog with indexes := live.catalog.indexes.insert name indexDef }
    let actions := [.openDir (.index name) wall, .setCatalog catalog, .saveCatalog catalog] ++
      (calls ++ [.saveCatalog catalog])
    db.Allows actions → Ready (db.actAll actions) { live with catalog } := by
  intro catalog actions hgood
  have hfirst : Ready (db.actAll [.openDir (.index name) wall, .setCatalog catalog, .saveCatalog catalog])
      { live with catalog } := by
    refine h.addStore fun store heq hs => ?_
    cases store with
    | table t => exact hs
    | index ix =>
      have hne : ix ≠ name := fun hn => heq (by rw [hn])
      simpa [has, catalog, hne] using hs
  obtain ⟨-, hgood⟩ := allows_append.mp hgood
  rw [actAll_append, actAll_append]
  exact (hfirst.calls (allows_append.mp hgood).1 hengine).saveCatalog

theorem dropIndex (name : String) :
    let catalog := { live.catalog with indexes := live.catalog.indexes.erase name }
    Ready (db.actAll [.setCatalog catalog, .removeDir (.index name), .saveCatalog catalog])
      { live with catalog } := by
  intro catalog
  refine h.change (h.core.actAll ⟨trivial, trivial, trivial, trivial⟩) rfl rfl rfl ?_
  intro store hs
  have hne : store ≠ .index name := by
    rintro rfl
    simp [has, catalog] at hs
  refine isOpen_removeDirs (show store ∉ [Store.index name] by simpa using hne) (h.has_isOpen ?_)
  cases store with
  | table t => exact hs
  | index ix =>
    have hix : ix ≠ name := fun hn => hne (by rw [hn])
    simpa [has, catalog, hix] using hs

theorem dropTable (name : String) : Ready (db.actAll (.setCatalog (live.catalog.dropTable name) ::
        (removeDirs ((live.catalog.indexesOn name).map (fun ix => .index ix.1)) ++
          [.saveCatalog (live.catalog.dropTable name), .removeDir (.table name)])))
      { live with catalog := live.catalog.dropTable name } := by
  generalize hcatalog : live.catalog.dropTable name = catalog
  have htables : catalog.tables = live.catalog.tables.erase name := by rw [← hcatalog, Catalog.dropTable]
  have hindexes : catalog.indexes = live.catalog.indexes.filter (fun ix => ix.2.table ≠ name) := by
    rw [← hcatalog, Catalog.dropTable]
  generalize hdropped : (live.catalog.indexesOn name).map (fun ix => Store.index ix.1) = dropped
  obtain ⟨hlive, -, hjournal⟩ := removeDirs_actAll (db.act (.setCatalog catalog)) dropped
  have hcore := (h.core.act (a := .setCatalog catalog) trivial).actAll
    (allows_removeDirs (db.act (.setCatalog catalog)) dropped)
  rw [show ∀ a actions, db.actAll (a :: actions) = (db.act a).actAll actions from fun _ _ => rfl,
    actAll_append]
  refine h.change (hcore.actAll ⟨trivial, trivial, trivial⟩) hlive rfl hjournal ?_
  intro store hs
  have htable : store ∉ [Store.table name] := by
    rw [mem_singleton]
    rintro rfl
    simp [has, htables] at hs
  have hindex : store ∉ dropped := by
    intro hmem
    rw [← hdropped, List.mem_map] at hmem
    obtain ⟨ix, hix, rfl⟩ := hmem
    obtain ⟨e, he, rfl⟩ := mem_map.mp hix
    obtain ⟨hentry, hname⟩ := mem_filter.mp he
    have hget := (OrdMap.get?_eq_some_iff live.catalog.indexes).mpr hentry
    simp [has, hindexes, OrdMap.get?_filter, hget, Option.filter] at hs
    exact hs (by simpa using hname)
  have hopen : db.isOpen store = true := by
    refine h.has_isOpen ?_
    cases store with
    | table t =>
      have hne : t ≠ name := fun hn => htable (by simp [hn])
      simpa [has, htables, hne] using hs
    | index ix =>
      obtain ⟨def', hdef⟩ := isSome_iff_exists.mp (show (catalog.indexes.get? ix).isSome = true from hs)
      rw [hindexes, OrdMap.get?_filter, filter_eq_some_iff] at hdef
      exact isSome_iff_exists.mpr ⟨def', hdef.1⟩
  have hkept := isOpen_removeDirs hindex (show (db.act (.setCatalog catalog)).isOpen store = true from hopen)
  exact isOpen_removeDirs htable hkept

end

end Ready

end Database

namespace Work

variable (env : Env) (toF64 : Decimal → F64)

theorem rowOps_rows (table : String) (ops : List RowOp) (w : Work) :
    ∃ rows, Rows w (rowOps env toF64 table ops w).2 rows := by
  induction ops generalizing w with
  | nil => exact ⟨[], Rows.refl w⟩
  | cons op ops ih =>
    have hop : ∃ rows, Rows w (rowOp env toF64 table w op).2 rows := by
      cases op with
      | put key doc => exact ⟨_, (putRow_spec env toF64 w table key doc).2⟩
      | delete key doc => exact ⟨_, (deleteRow_spec env toF64 w table key doc).2⟩
    obtain ⟨rows, hrows⟩ := hop
    rw [rowOps]
    cases hresult : rowOp env toF64 table w op with
    | mk err w₁ =>
      rw [hresult] at hrows
      cases err with
      | some e => exact ⟨rows, hrows⟩
      | none =>
        obtain ⟨rows', hrows'⟩ := ih w₁
        exact ⟨rows ++ rows', hrows.trans hrows'⟩

theorem flushPending_did (deferred : Bool) (w : Work) :
    ∃ actions, Did w (w.flushPending env deferred) actions ∧ ∀ a ∈ actions, a.onEngine = true := by
  cases deferred with
  | true => exact ⟨[], ⟨(append_nil _).symm, rfl⟩, by simp⟩
  | false => exact ⟨_, flushPending_inline env w, onEngine_syncs⟩

theorem dropDirs_did (indexes : List (String × List String)) (w : Work) :
    Did w (indexes.foldl (fun w ix => w.perform (.removeDir (.index ix.1))) w)
      (Database.removeDirs (indexes.map (fun ix => .index ix.1))) := by
  have hdid := Did.foldl (fun ix => .removeDir (.index ix.1)) indexes w
  rwa [Database.removeDirs, List.map_map]

theorem backfill_rows {w : Work} : Rows w (w.backfill env toF64 name table paths) [] := by
  refine Rows.foldl ?_ _ w
  intro w row
  split
  · exact rows_indexPut env toF64 w (name, paths) _ row.1
  · exact Rows.refl w

end Work

namespace Database

variable {db : Database} {live : Live}

theorem onJournal_of_onEngine {a : Action} (h : a.onEngine = true) : a.onJournal = false := by
  cases a <;> first | rfl | cases h

theorem onJournal_removeDirs {stores : List Store} : ∀ a ∈ removeDirs stores, a.onJournal = false := by
  intro a ha
  obtain ⟨store, -, rfl⟩ := mem_map.mp ha
  rfl

def Returns (db : Database) (w : Work) : Prop :=
  ∃ actions, (Work.ofDatabase db).Did w actions ∧ (∀ a ∈ actions, a.onJournal = false) ∧
    (db.Allows actions → ∃ live, Ready w.db live)

theorem returns_of_did {w : Work} (hdid : (ofDatabase db).Did w actions)
    (hjournal : ∀ a ∈ actions, a.onJournal = false) (h : db.Allows actions → Ready (db.actAll actions) live) :
    Returns db w := by
  refine ⟨actions, hdid, hjournal, fun hgood => ⟨live, ?_⟩⟩
  rw [hdid.db_eq]
  exact h hgood

namespace Ready

theorem returns_nothing (h : Ready db live) : Returns db (ofDatabase db) :=
  ⟨[], .refl _, by simp, fun _ => ⟨live, h⟩⟩

theorem returns_setTxn (h : Ready db live) (session : Nat) (txn : Option TxnWrites) :
    Returns db ((ofDatabase db).perform (.setTxn session txn)) :=
  ⟨_, .perform _ _, by simp [onJournal], fun _ => ⟨_, h.setTxn session txn⟩⟩

theorem returns_saveCatalog (h : Ready db live) :
    Returns db ((ofDatabase db).perform (.saveCatalog db.catalog)) := by
  rw [h.catalog_eq]
  exact ⟨_, .perform _ _, by simp [onJournal], fun _ => ⟨_, h.saveCatalog⟩⟩

variable (toF64 : Decimal → F64) (env : Env) (session : Nat) (deferred : Bool)

section

variable (h : Ready db live)

include h

theorem returns_writeRows : Returns db ((ofDatabase db).writeRows env toF64 session deferred table ops).2 := by
  unfold writeRows
  split_ifs
  · split
    · exact h.returns_setTxn session _
    · obtain ⟨rows, hrows⟩ := rowOps_rows env toF64 table ops (ofDatabase db)
      obtain ⟨calls, hdid, hengine, -⟩ := hrows.calls
      obtain ⟨flushes, hdid', hengine'⟩ := flushPending_did env deferred
        (rowOps env toF64 table ops (ofDatabase db)).2
      have hall : ∀ a ∈ calls ++ flushes, a.onEngine = true := fun a ha =>
        (mem_append.mp ha).elim (hengine a) (hengine' a)
      have hdone := hdid.trans hdid'
      exact returns_of_did hdone (fun a ha => onJournal_of_onEngine (hall a ha)) (fun hgood => h.calls hgood hall)
  · exact h.returns_nothing

theorem returns_createTable : Returns db ((ofDatabase db).createTable env name primaryKey ifNotExists).2 := by
  unfold Work.createTable
  split_ifs
  · exact h.returns_nothing
  · exact h.returns_saveCatalog
  · exact h.returns_nothing
  · have hready := h.createTable name ⟨primaryKey⟩ ((ofDatabase db).tick env).wall
    rw [← h.catalog_eq] at hready
    exact ⟨_, ((Did.perform _ _).trans (Did.perform _ _)).trans (Did.perform _ _),
      by simp [onJournal], fun _ => ⟨_, hready⟩⟩

theorem returns_dropTable : Returns db ((Work.ofDatabase db).dropTable name ifExists).2 := by
  unfold Work.dropTable
  split_ifs
  · have hready := h.dropTable name
    rw [← h.catalog_eq] at hready
    have hdid := (Did.perform (ofDatabase db) (.setCatalog (db.catalog.dropTable name))).trans
      ((dropDirs_did (db.catalog.indexesOn name) _).trans
        ((Did.perform _ (.saveCatalog (db.catalog.dropTable name))).trans
          (Did.perform _ (.removeDir (.table name)))))
    refine returns_of_did hdid ?_ (fun _ => hready)
    rw [forall_mem_append, forall_mem_append]
    exact ⟨by simp [onJournal], onJournal_removeDirs, by simp [onJournal]⟩
  · exact h.returns_saveCatalog
  · exact h.returns_nothing

theorem returns_createIndex :
    Returns db ((ofDatabase db).createIndex env toF64 name table paths ifNotExists).2 := by
  unfold Work.createIndex
  split_ifs
  · exact h.returns_saveCatalog
  · exact h.returns_nothing
  · exact h.returns_nothing
  · have hfirst := (Did.perform (ofDatabase db) (.openDir (.index name) ((ofDatabase db).tick env).wall)).trans
      ((Did.perform _ (.setCatalog
        { db.catalog with indexes := db.catalog.indexes.insert name ⟨table, paths⟩ })).trans
        (Did.perform _ (.saveCatalog
          { db.catalog with indexes := db.catalog.indexes.insert name ⟨table, paths⟩ })))
    obtain ⟨calls, hdid, hengine, -⟩ := (backfill_rows env toF64).calls
    have hready := h.createIndex name ⟨table, paths⟩ ((ofDatabase db).tick env).wall hengine
    rw [← h.catalog_eq] at hready
    refine returns_of_did (hfirst.trans (hdid.trans (Did.perform _ _))) ?_ hready
    exact forall_mem_append.mpr ⟨by simp [onJournal], forall_mem_append.mpr
      ⟨fun a ha => onJournal_of_onEngine (hengine a ha), by simp [onJournal]⟩⟩
  · exact h.returns_nothing

theorem returns_dropIndex : Returns db ((ofDatabase db).dropIndex name ifExists).2 := by
  unfold Work.dropIndex
  split_ifs
  · have hready := h.dropIndex name
    rw [← h.catalog_eq] at hready
    exact ⟨_, ((Did.perform _ _).trans (Did.perform _ _)).trans (Did.perform _ _),
      by simp [onJournal], fun _ => ⟨_, hready⟩⟩
  · exact h.returns_nothing

theorem returns_execute (hstmt : stmt ≠ .commit) :
    Returns db (db.execute toF64 session deferred env stmt).2 := by
  cases stmt with
  | begin =>
    show Returns db ((ofDatabase db).begin session).2
    unfold begin
    split
    · exact h.returns_nothing
    · exact h.returns_setTxn session _
  | commit => exact absurd rfl hstmt
  | rollback =>
    show Returns db ((ofDatabase db).rollback session).2
    unfold rollback
    split
    · exact h.returns_nothing
    · exact h.returns_setTxn session none
  | write table ops => exact h.returns_writeRows toF64 env session deferred
  | createTable name primaryKey ifNotExists => exact h.returns_createTable env
  | dropTable name ifExists => exact h.returns_dropTable
  | createIndex name table paths ifNotExists => exact h.returns_createIndex toF64 env
  | dropIndex name ifExists => exact h.returns_dropIndex

end

end Ready

end Database

end Skaidb.Exec
