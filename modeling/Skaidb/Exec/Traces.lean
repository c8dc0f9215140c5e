import Mathlib.Data.List.TakeWhile
import Skaidb.Exec.Transactions
import Skaidb.Storage.Recovery.Serving

namespace Skaidb.Exec

open Skaidb.Types Skaidb.Storage Skaidb.Base List Option Database System Skaidb.Exec.Action

abbrev RowWrite := String × Bytes × VersionValue

namespace Action

def onEngine : Action → Bool
  | .engine _ _ => true
  | _ => false

def rowWrite : Action → Option RowWrite
  | .engine (.table t) (.write _ _ _ _ key value) => some (t, key, value)
  | _ => none

def Good (db : Database) : Action → Prop
  | .engine store op => ∀ s ∈ db.dirs store, s.Safe (.op op) ∧ s.Fresh (.op op)
  | _ => True

instance (db : Database) (a : Action) : Decidable (a.Good db) :=
  match a with
  | .engine store _ => inferInstanceAs (Decidable (∀ s ∈ db.dirs store, _ ∧ _))
  | .openDir _ _ | .removeDir _ | .writeTmp _ | .syncTmp | .renameTmp | .removeJournal | .saveCatalog _
  | .start _ | .setTxn _ _ | .setCatalog _ => isTrue trivial

end Action

variable {rows : List RowWrite}

namespace Database

variable {db db' db'' : Database}

def history (db : Database) (store : Store) : History :=
  ((db.dirs store).map System.history).getD History.start

def isOpen (db : Database) (store : Store) : Bool := (db.process store).isSome

variable {s : System}

section Dirs

@[simp] theorem dirs_setDir_self {db : Database} : (db.setDir store dir).dirs store = dir :=
  Function.update_self ..

theorem dirs_setDir_of_ne (h : other ≠ store) : (db.setDir store dir).dirs other = db.dirs other :=
  Function.update_of_ne h ..

theorem history_of_dir (h : db.dirs store = some s) : db.history store = s.history := by
  rw [history, h]
  rfl

theorem process_of_dir (h : db.dirs store = some s) : db.process store = match s.status with
      | .up p => some p
      | .down _ => none := by
  obtain ⟨opts, status, hist⟩ := s
  cases status <;> simp [process, h]

theorem isOpen_iff : db.isOpen store = true ↔ ∃ s p, db.dirs store = some s ∧ s.status = .up p := by
  rw [isOpen]
  cases hdir : db.dirs store with
  | none => simp [process, hdir]
  | some s =>
    rw [process_of_dir hdir]
    cases hstatus : s.status <;> simp [hstatus]

end Dirs

def Allows (db : Database) (actions : List Action) : Prop := Along Database.act (fun db a => a.Good db) db actions
deriving Decidable

theorem allows_append : db.Allows (xs ++ ys) ↔ db.Allows xs ∧ (db.actAll xs).Allows ys :=
  along_append

theorem actAll_append {db : Database} : db.actAll (xs ++ ys) = (db.actAll xs).actAll ys :=
  foldl_append

structure Core (db : Database) : Prop where
  persistent : db.opts.ephemeral = false
  serves : ∀ store s, db.dirs store = some s → s.Serves

theorem Core.setDir (h : db.Core) (hdir : ∀ s ∈ dir, s.Serves) : (db.setDir store dir).Core := by
  refine ⟨h.persistent, ?_⟩
  intro other s hs
  by_cases heq : other = store
  · subst heq
    rw [dirs_setDir_self] at hs
    exact hdir s hs
  · rw [dirs_setDir_of_ne heq] at hs
    exact h.serves other s hs

theorem Core.serves_opened (h : db.Core) : ((db.dirs store).getD (init db.opts)).Serves := by
  cases hdir : db.dirs store with
  | none => exact serves_init h.persistent
  | some s => exact h.serves store s hdir

theorem Core.act (h : db.Core) {a : Action} (hgood : a.Good db) : (db.act a).Core := by
  cases a with
  | engine store op =>
    refine h.setDir ?_
    intro s hs
    obtain ⟨t, ht, rfl⟩ := map_eq_some_iff.mp hs
    obtain ⟨hsafe, hfresh⟩ := hgood t ht
    exact serves_step (h.serves store t ht) hsafe hfresh
  | openDir store wall =>
    refine h.setDir ?_
    rintro s ⟨⟩
    exact serves_step h.serves_opened (by simp [Safe]) (by simp [Fresh])
  | removeDir store => exact h.setDir (by simp)
  | _ => exact ⟨h.persistent, h.serves⟩

variable {actions : List Action}

theorem Core.actAll (h : db.Core) (hgood : db.Allows actions) : (db.actAll actions).Core :=
  hgood.invariant (fun _ _ hcore ha => hcore.act ha) h

theorem unlinkAll_nil (s : System) : unlinkAll s [] = s := by
  obtain ⟨opts, status, hist⟩ := s
  cases status <;> rfl

theorem history_unlinkAll (s : System) (files : List DirFile) : (unlinkAll s files).history = s.history := by
  unfold unlinkAll
  split <;> rfl

theorem crashDir_whole (h : removing during store = true → loss.unlinked = []) :
    crashDir during cut loss store s = s.step (crashEvent during cut loss store) := by
  rw [crashDir]
  split_ifs with hremove
  · rw [h hremove, unlinkAll_nil]
  · exact unlinkAll_nil _

theorem Core.crash (h : db.Core) (hgood : ∀ a ∈ during, a.Good db)
    (hwhole : ∀ store, removing during store = true → loss.unlinked = []) : (db.crash during cut loss).Core := by
  refine ⟨h.persistent, ?_⟩
  intro store s hs
  obtain ⟨t, ht, rfl⟩ := map_eq_some_iff.mp hs
  rw [crashDir_whole (hwhole store)]
  have hop : t.Safe (.op (interrupted during cut store).1) ∧ t.Fresh (.op (interrupted during cut store).1) := by
    have hidle : t.Safe (.op .clearReadCache) ∧ t.Fresh (.op .clearReadCache) :=
      ⟨t.safe_clearReadCache, fresh_of_not_write rfl⟩
    unfold interrupted
    split
    · case h_1 other op =>
        split_ifs with heq
        · exact hgood _ rfl t (heq ▸ ht)
        · exact hidle
    · exact hidle
  exact serves_step (h.serves store t ht) (safe_crash hop.1) (fresh_crash hop.2)

def rowsIn (t : String) (rows : List RowWrite) : List (Bytes × VersionValue) :=
  (rows.filter (fun r => r.1 = t)).map Prod.snd

theorem rowsIn_append : rowsIn t (rows ++ rows') = rowsIn t rows ++ rowsIn t rows' := by
  rw [rowsIn, filter_append, map_append]
  rfl

-- Calls on engines: everything else stays, the logs of the tables grow by these rows.
structure Grows (db db' : Database) (rows : List RowWrite) : Prop where
  opts : db'.opts = db.opts
  live : db'.live = db.live
  catalogFile : db'.catalogFile = db.catalogFile
  journal : db'.journal = db.journal
  isOpen : ∀ store, db.isOpen store = true → db'.isOpen store = true
  records : ∀ t, ∃ recs : List WalRecord, (db'.history (.table t)).records =
    (db.history (.table t)).records ++ recs ∧ recs.map (fun r => (r.key, r.op)) = rowsIn t rows
  durable : ∀ store, (db.history store).durable ≤ (db'.history store).durable
  synced : ∀ store, (db.history store).synced ⊆ (db'.history store).synced

namespace Grows

theorem refl (db : Database) : Grows db db [] :=
  ⟨rfl, rfl, rfl, rfl, fun _ h => h, fun _ => ⟨[], (append_nil _).symm, rfl⟩, fun _ => le_rfl,
    fun _ _ h => h⟩

theorem trans {rows' : List RowWrite} (h : Grows db db' rows) (h' : Grows db' db'' rows') :
    Grows db db'' (rows ++ rows') := by
  refine ⟨h'.opts.trans h.opts, h'.live.trans h.live, h'.catalogFile.trans h.catalogFile,
    h'.journal.trans h.journal, fun store hs => h'.isOpen store (h.isOpen store hs), ?_,
    fun store => (h.durable store).trans (h'.durable store),
    fun store _ hi => h'.synced store (h.synced store hi)⟩
  intro t
  obtain ⟨recs, hrec, hmap⟩ := h.records t
  obtain ⟨recs', hrec', hmap'⟩ := h'.records t
  refine ⟨recs ++ recs', by rw [hrec', hrec, append_assoc], ?_⟩
  rw [map_append, hmap, hmap', rowsIn_append]

end Grows

section Engine

variable {op : Op}

theorem history_engine_of_ne (h : other ≠ store) :
    (db.act (.engine store op)).history other = db.history other := by
  rw [history, act, dirs_setDir_of_ne h]
  rfl

theorem dirs_engine_self (h : db.dirs store = some s) :
    (db.act (.engine store op)).dirs store = some (s.step (.op op)) := by
  rw [act, dirs_setDir_self, h]
  rfl

theorem isOpen_engine (other : Store) (h : db.isOpen other = true) :
    (db.act (.engine store op)).isOpen other = true := by
  obtain ⟨s, p, hs, hup⟩ := isOpen_iff.mp h
  by_cases heq : other = store
  · subst heq
    exact isOpen_iff.mpr ⟨_, p.step op, dirs_engine_self hs, by rw [step_op hup]⟩
  · exact isOpen_iff.mpr ⟨s, p, by rw [act, dirs_setDir_of_ne heq, hs], hup⟩

theorem records_engine (h : db.Core) {p : Process} (hs : db.dirs store = some s) (hup : s.status = .up p) :
    ((db.act (.engine store op)).history store).records =
      (db.history store).records ++ (op.record p.engine).toList := by
  rw [history_of_dir (dirs_engine_self hs), history_of_dir hs]
  exact records_op (h.serves store s hs).inv hup op

theorem engine_of_not_open (h : db.isOpen store = false) : db.act (.engine store op) = db := by
  have hdir : (db.dirs store).map (fun s => s.step (.op op)) = db.dirs store := by
    cases hs : db.dirs store with
    | none => rfl
    | some s =>
      cases hstatus : s.status with
      | up p => exact absurd (isOpen_iff.mpr ⟨s, p, hs, hstatus⟩) (by simp [h])
      | down d => rw [map_some, show s.step (.op op) = s by simp only [System.step, hstatus]]
  rw [act, hdir, setDir, Function.update_eq_self]

theorem rowWrite_eq_none (h : op.isWrite = false) : (engine store op).rowWrite = none := by
  cases store <;> cases op <;> first | rfl | cases h

theorem rowWrite_store (h : (engine store op).rowWrite = some row) : Store.table row.1 = store := by
  cases store with
  | index name => cases h
  | table t =>
    cases op with
    | write stamping sync wall now key value =>
      cases h
      rfl
    | _ => cases h

theorem rowsIn_rowWrite_of_ne (h : Store.table t ≠ store) :
    rowsIn t (engine store op).rowWrite.toList = [] := by
  cases store with
  | index name => rfl
  | table other =>
    have hne : other ≠ t := fun heq => h (heq ▸ rfl)
    cases op <;> simp [rowWrite, rowsIn, hne]

theorem grows_engine (h : db.Core) (hopen : (engine store op).rowWrite ≠ none → db.isOpen store = true) :
    Grows db (db.act (.engine store op)) (engine store op).rowWrite.toList := by
  cases hup : db.isOpen store with
  | false =>
    have hnone : (engine store op).rowWrite = none := by
      by_contra hne
      rw [hopen hne] at hup
      cases hup
    rw [engine_of_not_open hup, hnone]
    exact Grows.refl db
  | true =>
    obtain ⟨s, p, hs, hstatus⟩ := isOpen_iff.mp hup
    refine ⟨rfl, rfl, rfl, rfl, isOpen_engine, ?_, ?_, ?_⟩
    · intro t
      by_cases heq : Store.table t = store
      · subst heq
        refine ⟨(op.record p.engine).toList, records_engine h hs hstatus, ?_⟩
        cases hop : op.isWrite with
        | false =>
          rw [Op.record_eq_none hop, rowWrite_eq_none hop]
          rfl
        | true =>
          cases op with
          | write stamping sync wall now key value => simp [Op.record, rowWrite, rowsIn]
          | _ => cases hop
      · refine ⟨[], by rw [history_engine_of_ne heq, append_nil], ?_⟩
        rw [rowsIn_rowWrite_of_ne heq]
        rfl
    · intro other
      by_cases heq : other = store
      · subst heq
        rw [history_of_dir (dirs_engine_self hs), history_of_dir hs]
        exact durable_op (h.serves other s hs).inv
      · rw [history_engine_of_ne heq]
    · intro other
      by_cases heq : other = store
      · subst heq
        rw [history_of_dir (dirs_engine_self hs), history_of_dir hs]
        exact s.synced_op
      · rw [history_engine_of_ne heq]
        exact fun _ hi => hi

theorem grows_actAll (h : db.Core) (hgood : db.Allows actions) (hengine : ∀ a ∈ actions, a.onEngine = true)
    (hopen : ∀ row ∈ actions.filterMap rowWrite, db.isOpen (.table row.1) = true) :
    Grows db (db.actAll actions) (actions.filterMap rowWrite) := by
  induction actions generalizing db with
  | nil => exact Grows.refl db
  | cons a actions ih =>
    obtain ⟨ha, hactions⟩ := hgood
    obtain ⟨hfirstEngine, hrest⟩ := forall_mem_cons.mp hengine
    cases a with
    | engine store op =>
      have hrows : (engine store op :: actions).filterMap rowWrite =
          (engine store op).rowWrite.toList ++ actions.filterMap rowWrite := by
        cases hw : (engine store op).rowWrite <;> simp [hw]
      rw [hrows] at hopen ⊢
      have hfirst : Grows db (db.act (.engine store op)) (engine store op).rowWrite.toList := by
        refine grows_engine h ?_
        intro hne
        obtain ⟨row, hrow⟩ := ne_none_iff_exists'.mp hne
        have hmem := hopen row (mem_append_left _ (by rw [hrow]; simp))
        rwa [rowWrite_store hrow] at hmem
      refine hfirst.trans (ih (h.act ha) hactions hrest ?_)
      intro row hrow
      exact hfirst.isOpen _ (hopen row (mem_append_right _ hrow))
    | _ => cases hfirstEngine

end Engine

section NextCommit

variable {op : Op}

theorem nextCommit_engine (h : other ≠ store ∨ op.isWrite = false) :
    (db.act (.engine store op)).nextCommit other = db.nextCommit other := by
  by_cases heq : other = store
  · subst heq
    have hop : op.isWrite = false := h.resolve_left (fun hne => hne rfl)
    cases hopen : db.isOpen other with
    | false => rw [engine_of_not_open hopen]
    | true =>
      obtain ⟨s, p, hs, hup⟩ := isOpen_iff.mp hopen
      rw [nextCommit, nextCommit, process_of_dir (dirs_engine_self hs), process_of_dir hs,
        step_op hup, hup]
      exact congrArg List.length (p.commits_step hop)
  · rw [nextCommit, nextCommit, process, process, act, dirs_setDir_of_ne heq]

theorem nextCommit_write (h : db.isOpen store = true) (hop : op.isWrite = true) :
    (db.act (.engine store op)).nextCommit store = db.nextCommit store + 1 := by
  obtain ⟨s, p, hs, hup⟩ := isOpen_iff.mp h
  rw [nextCommit, nextCommit, process_of_dir (dirs_engine_self hs), process_of_dir hs,
    step_op hup, hup]
  exact p.commits_write hop

end NextCommit

theorem kept_actAll {α : Type} {f : Database → α} {p : Action → Prop}
    (hact : ∀ db a, p a → f (db.act a) = f db) (h : ∀ a ∈ actions, p a) : f (db.actAll actions) = f db := by
  induction actions generalizing db with
  | nil => rfl
  | cons a actions ih =>
    obtain ⟨ha, hrest⟩ := forall_mem_cons.mp h
    exact (ih hrest).trans (hact db a ha)

theorem files_actAll (db : Database) (hengine : ∀ a ∈ actions, a.onEngine = true) :
    (db.actAll actions).live = db.live ∧ (db.actAll actions).catalogFile = db.catalogFile ∧
      (db.actAll actions).journal = db.journal := by
  induction actions generalizing db with
  | nil => exact ⟨rfl, rfl, rfl⟩
  | cons a actions ih =>
    obtain ⟨ha, hrest⟩ := forall_mem_cons.mp hengine
    cases a with
    | engine other op => exact ih (db.act (.engine other op)) hrest
    | _ => cases ha

theorem isOpen_actAll (hengine : ∀ a ∈ actions, a.onEngine = true) {store : Store}
    (h : db.isOpen store = true) : (db.actAll actions).isOpen store = true := by
  induction actions generalizing db with
  | nil => exact h
  | cons a actions ih =>
    obtain ⟨ha, hrest⟩ := forall_mem_cons.mp hengine
    cases a with
    | engine other op => exact ih hrest (isOpen_engine store h)
    | _ => cases ha

end Database

structure Work.Did (w w' : Work) (actions : List Action) : Prop where
  done : w'.done = w.done ++ actions
  db : w'.db = w.db.actAll actions

namespace Work.Did

variable {w w' w'' : Work}

theorem done_eq {db : Database} (h : Did (ofDatabase db) w actions) : w.done = actions := h.done

theorem db_eq {db : Database} (h : Did (ofDatabase db) w actions) : w.db = db.actAll actions := h.db

theorem refl (w : Work) : Did w w [] := ⟨(append_nil _).symm, rfl⟩

theorem trans (h : Did w w' actions) (h' : Did w' w'' actions') : Did w w'' (actions ++ actions') :=
  ⟨by rw [h'.done, h.done, append_assoc], by rw [h'.db, h.db, actAll_append]⟩

theorem perform (w : Work) (a : Action) : Did w (w.perform a) [a] := ⟨rfl, rfl⟩

theorem foldl {α : Type} (f : α → Action) (as : List α) (w : Work) :
    Did w (as.foldl (fun w a => w.perform (f a)) w) (as.map f) := by
  induction as generalizing w with
  | nil => exact refl w
  | cons a as ih => exact (perform w (f a)).trans (ih (w.perform (f a)))

end Work.Did

namespace Work

variable {w w' w'' : Work}

def Covered (w : Work) (t : String) : Prop :=
  ∃ i, (Store.table t, i) ∈ w.pending ∧ w.db.nextCommit (.table t) = i + 1

-- From `w` to `w'` the statement has called engines only, to write these rows, and a
-- table it has written to is covered.
structure Rows (w w' : Work) (rows : List RowWrite) : Prop where
  calls : ∃ actions, Did w w' actions ∧ (∀ a ∈ actions, a.onEngine = true) ∧
    actions.filterMap Action.rowWrite = rows
  covered : ∀ t, w.db.isOpen (.table t) = true → t ∈ rows.map Prod.fst ∨ w.Covered t → w'.Covered t

namespace Rows

theorem refl (w : Work) : Rows w w [] :=
  ⟨⟨[], .refl w, by simp, rfl⟩, fun _ _ h => h.resolve_left (by simp)⟩

theorem trans {rows' : List RowWrite} (h : Rows w w' rows) (h' : Rows w' w'' rows') :
    Rows w w'' (rows ++ rows') := by
  obtain ⟨actions, hdid, hengine, hrows⟩ := h.calls
  obtain ⟨actions', hdid', hengine', hrows'⟩ := h'.calls
  refine ⟨⟨actions ++ actions', hdid.trans hdid', ?_, ?_⟩, ?_⟩
  · intro a ha
    exact (mem_append.mp ha).elim (hengine a) (hengine' a)
  · rw [filterMap_append, hrows, hrows']
  · intro t hopen hcov
    have hopen' : w'.db.isOpen (.table t) = true := by
      rw [hdid.db]
      exact isOpen_actAll hengine hopen
    rw [map_append, mem_append] at hcov
    by_cases hlater : t ∈ rows'.map Prod.fst
    · exact h'.covered t hopen' (.inl hlater)
    · exact h'.covered t hopen' (.inr (h.covered t hopen (hcov.imp_left (fun h => h.resolve_right hlater))))

theorem live (h : Rows w w' rows) : w'.db.live = w.db.live := by
  obtain ⟨actions, hdid, hengine, -⟩ := h.calls
  rw [hdid.db]
  exact (files_actAll _ hengine).1

theorem hasTable (h : Rows w w' rows) (t : String) : w'.db.hasTable t = w.db.hasTable t := by
  rw [Database.hasTable, Database.hasTable, Database.catalog, Database.catalog, h.live]

theorem foldl {α : Type} {f : Work → α → Work} (hf : ∀ w a, Rows w (f w a) []) (as : List α) (w : Work) :
    Rows w (as.foldl f w) [] := by
  induction as generalizing w with
  | nil => exact refl w
  | cons a as ih => exact (hf w a).trans (ih (f w a))

end Rows

theorem rows_perform {w : Work} {op : Op} (h : op.isWrite = false ∨ ∃ name, store = .index name) :
    Rows w (w.perform (.engine store op)) [] := by
  have hrow : (engine store op).rowWrite = none := by
    obtain hop | ⟨name, rfl⟩ := h
    · exact rowWrite_eq_none hop
    · rfl
  refine ⟨⟨[.engine store op], .perform _ _, by simp [onEngine], by simp [hrow]⟩, ?_⟩
  intro t _ hcov
  obtain ⟨i, hi, hnext⟩ := hcov.resolve_left (by simp)
  refine ⟨i, hi, ?_⟩
  rw [perform, nextCommit_engine, hnext]
  obtain hop | ⟨name, rfl⟩ := h
  · exact .inr hop
  · exact .inl (by simp)

section RowWrites

variable (env : Env) (toF64 : Decimal → F64) (w : Work)

theorem rows_write_index : Rows w (w.write env (.index name) sync key value) [] :=
  rows_perform (.inr ⟨name, rfl⟩)

theorem rows_writeDeferred_index : Rows w (w.writeDeferred env (.index name) key value) [] := by
  obtain ⟨⟨actions, hdid, hcalls⟩, hcov⟩ := rows_write_index env w
  refine ⟨⟨actions, ⟨hdid.done, hdid.db⟩, hcalls⟩, ?_⟩
  intro t hopen h
  obtain ⟨i, hi, hnext⟩ := hcov t hopen h
  refine ⟨i, ?_, hnext⟩
  exact mem_append_left _ (mem_filter.mpr ⟨hi, by simp⟩)

theorem rows_writeDeferred_table : Rows w (w.writeDeferred env (.table t) key value) [(t, key, value)] := by
  refine ⟨⟨[_], ⟨rfl, rfl⟩, by simp [onEngine], rfl⟩, ?_⟩
  intro other hopen hcov
  by_cases heq : other = t
  · subst heq
    exact ⟨w.db.nextCommit (.table other), mem_append_right _ mem_cons_self,
      nextCommit_write hopen rfl⟩
  · obtain ⟨i, hi, hnext⟩ := hcov.resolve_left (by simpa using heq)
    refine ⟨i, mem_append_left _ (mem_filter.mpr ⟨hi, by simpa using heq⟩), ?_⟩
    rw [← hnext]
    exact nextCommit_engine (.inl (by simpa using heq))

variable (ix : String × List String) (doc : Document) (rowKey : Bytes)

theorem rows_indexDel : Rows w (w.indexDel env toF64 ix doc rowKey) [] :=
  Rows.foldl (fun w _ => rows_write_index env w) _ w

theorem rows_indexPut : Rows w (w.indexPut env toF64 ix doc rowKey) [] :=
  Rows.foldl (fun w _ => rows_write_index env w) _ w

theorem rows_indexDelDeferred : Rows w (w.indexDelDeferred env toF64 ix doc rowKey) [] :=
  Rows.foldl (fun w _ => rows_writeDeferred_index env w) _ w

theorem rows_indexPutDeferred : Rows w (w.indexPutDeferred env toF64 ix doc rowKey) [] :=
  Rows.foldl (fun w _ => rows_writeDeferred_index env w) _ w

theorem rows_get (store : Store) (key : Bytes) : Rows w (w.get env store key).2 [] :=
  rows_perform (.inl rfl)

theorem rows_indexDelPrevious (table : String) (key : Bytes) :
    Rows w (w.indexDelPrevious env toF64 table key) [] := by
  unfold indexDelPrevious
  dsimp only
  split_ifs
  · exact Rows.refl w
  · have hget := rows_get env w (.table table) key
    split
    · exact hget.trans (Rows.foldl (fun w ix => rows_indexDel env toF64 w ix _ key) _ _)
    · exact hget

theorem putRow_spec (table : String) (key : Bytes) (doc : Document) :
    (w.putRow env toF64 table key doc).1 = (if w.db.hasTable table then none else some (.tableNotFound table)) ∧
      Rows w (w.putRow env toF64 table key doc).2
        (if w.db.hasTable table then [(table, key, .put (encodeDocument doc))] else []) := by
  have hprev := rows_indexDelPrevious env toF64 w table key
  unfold putRow
  dsimp only
  rw [hprev.hasTable]
  split_ifs
  · refine ⟨rfl, (hprev.trans (rows_writeDeferred_table env _)).trans
      (Rows.foldl (fun w ix => rows_indexPutDeferred env toF64 w ix doc key) _ _)⟩
  · exact ⟨rfl, hprev⟩

theorem deleteRow_spec (table : String) (key : Bytes) (doc : Document) :
    (w.deleteRow env toF64 table key doc).1 = (if w.db.hasTable table then none else some (.tableNotFound table)) ∧
      Rows w (w.deleteRow env toF64 table key doc).2
        (if w.db.hasTable table then [(table, key, .delete)] else []) := by
  unfold deleteRow
  split_ifs
  · exact ⟨rfl, (rows_writeDeferred_table env w).trans
      (Rows.foldl (fun w ix => rows_indexDelDeferred env toF64 w ix doc key) _ _)⟩
  · exact ⟨rfl, Rows.refl w⟩

end RowWrites

section Entries

variable (env : Env) (toF64 : Decimal → F64)

def entryTable (entry : RowId × Option Document) : String := (ofLex entry.1).1

def entryValue : Option Document → VersionValue
  | some doc => .put (encodeDocument doc)
  | none => .delete

def entryRow (entry : RowId × Option Document) : RowWrite :=
  (entryTable entry, (ofLex entry.1).2, entryValue entry.2)

theorem applyWrite_spec (w : Work) (entry : RowId × Option Document) :
    (w.applyWrite env toF64 entry.1 entry.2).1 =
        (if w.db.hasTable (entryTable entry) then none else some (.tableNotFound (entryTable entry))) ∧
      Rows w (w.applyWrite env toF64 entry.1 entry.2).2
        (if w.db.hasTable (entryTable entry) then [entryRow entry] else []) := by
  obtain ⟨id, op⟩ := entry
  cases op with
  | some doc => exact putRow_spec env toF64 w _ _ doc
  | none =>
    have hget := rows_get env w (.table (ofLex id).1) (ofLex id).2
    have hdel := deleteRow_spec env toF64 (w.get env (.table (ofLex id).1) (ofLex id).2).2 (ofLex id).1
      (ofLex id).2 (((w.get env (.table (ofLex id).1) (ofLex id).2).1.bind decodeDocument).getD [])
    rw [hget.hasTable] at hdel
    unfold applyWrite committedDoc
    cases htable : w.db.hasTable (ofLex id).1 with
    | true =>
      rw [htable, if_pos rfl, if_pos rfl] at hdel
      simp only [entryTable, htable, if_true]
      exact ⟨hdel.1, hget.trans hdel.2⟩
    | false =>
      simp only [entryTable, htable, Bool.false_eq_true, if_false]
      exact ⟨trivial, Rows.refl w⟩

theorem applyEntries_spec (entries : List (RowId × Option Document)) (w : Work) :
    (applyEntries env toF64 entries w).1 =
        (entries.find? (fun e => !w.db.hasTable (entryTable e))).map (fun e => .tableNotFound (entryTable e)) ∧
      Rows w (applyEntries env toF64 entries w).2
        ((entries.takeWhile (fun e => w.db.hasTable (entryTable e))).map entryRow) := by
  induction entries generalizing w with
  | nil => exact ⟨rfl, Rows.refl w⟩
  | cons entry entries ih =>
    obtain ⟨herr, hrows⟩ := applyWrite_spec env toF64 w entry
    obtain ⟨id, op⟩ := entry
    cases hresult : w.applyWrite env toF64 id op with
    | mk err w₁ =>
      rw [hresult] at herr hrows
      cases htable : w.db.hasTable (entryTable (id, op)) with
      | true =>
        simp only [htable, if_true] at herr hrows
        obtain ⟨herr', hrows'⟩ := ih w₁
        simp only [hrows.hasTable] at herr' hrows'
        have hnext : applyEntries env toF64 ((id, op) :: entries) w = applyEntries env toF64 entries w₁ := by
          simp only [applyEntries, hresult, herr]
        simp only [hnext, takeWhile_cons, List.find?_cons, htable, if_true, Bool.not_true]
        exact ⟨herr', hrows.trans hrows'⟩
      | false =>
        simp only [htable, Bool.false_eq_true, if_false] at herr hrows
        have hstop : applyEntries env toF64 ((id, op) :: entries) w =
            (some (.tableNotFound (entryTable (id, op))), w₁) := by
          simp only [applyEntries, hresult, herr]
        simp only [hstop, takeWhile_cons, List.find?_cons, htable, Bool.false_eq_true, if_false,
          Bool.not_false]
        exact ⟨rfl, hrows⟩

end Entries

end Work

def syncs (pending : List (Store × Nat)) : List Action := pending.map (fun p => .engine p.1 (.sync p.2))

theorem onEngine_syncs {pending : List (Store × Nat)} : ∀ a ∈ syncs pending, a.onEngine = true := by
  intro a ha
  obtain ⟨p, -, rfl⟩ := mem_map.mp ha
  rfl

theorem rowWrites_syncs {pending : List (Store × Nat)} : (syncs pending).filterMap rowWrite = [] := by
  rw [filterMap_eq_nil_iff]
  intro a ha
  obtain ⟨p, -, rfl⟩ := mem_map.mp ha
  exact rowWrite_eq_none rfl

namespace Database

variable {db : Database}

def Settled (db : Database) (t : String) : Prop :=
  ∃ pos ∈ (db.history (.table t)).synced, pos + 1 = (db.history (.table t)).records.length

theorem commits_engine {op : Op} (h : op.isWrite = false) :
    ((db.act (.engine store op)).history other).commits = (db.history other).commits := by
  by_cases heq : other = store
  · subst heq
    cases hopen : db.isOpen other with
    | false => rw [engine_of_not_open hopen]
    | true =>
      obtain ⟨s, p, hs, hup⟩ := isOpen_iff.mp hopen
      rw [history_of_dir (dirs_engine_self hs), history_of_dir hs, commits_op hup, h,
        if_neg Bool.false_ne_true, append_nil]
  · rw [history_engine_of_ne heq]

theorem synced_syncs (h : db.Core) {pending : List (Store × Nat)} (hgood : db.Allows (syncs pending))
    (hmem : (store, i) ∈ pending) (hopen : db.isOpen store = true)
    (hpos : (db.history store).commits[i]? = some pos) :
    pos ∈ ((db.actAll (syncs pending)).history store).synced := by
  induction pending generalizing db with
  | nil => cases hmem
  | cons p pending ih =>
    have hfirst : (engine p.1 (.sync p.2)).Good db := hgood.1
    have hrest : (db.act (.engine p.1 (.sync p.2))).Allows (syncs pending) := hgood.2
    obtain rfl | hmem := mem_cons.mp hmem
    · obtain ⟨s, q, hs, hup⟩ := isOpen_iff.mp hopen
      rw [history_of_dir hs] at hpos
      have hgrows := grows_actAll (h.act hfirst) hrest onEngine_syncs (by rw [rowWrites_syncs]; simp)
      refine hgrows.synced store ?_
      rw [history_of_dir (dirs_engine_self hs)]
      exact synced_sync hup hpos
    · refine ih (h.act hfirst) hrest hmem (isOpen_engine store hopen) ?_
      rw [commits_engine rfl]
      exact hpos

end Database

namespace Work

variable {w : Work}

theorem Covered.exists_commit (h : w.Covered t) (hcore : w.db.Core) (hopen : w.db.isOpen (.table t) = true) :
    ∃ i pos, (Store.table t, i) ∈ w.pending ∧ (w.db.history (.table t)).commits[i]? = some pos ∧
      pos + 1 = (w.db.history (.table t)).records.length := by
  obtain ⟨i, hi, hnext⟩ := h
  obtain ⟨s, p, hs, hup⟩ := isOpen_iff.mp hopen
  have hserves := hcore.serves _ s hs
  have hlen : s.history.commits.length = i + 1 := by
    rw [← (hserves.inv.running hup).length, ← hnext, nextCommit, process_of_dir hs, hup]
    rfl
  have hlt : i < s.history.commits.length := by omega
  refine ⟨i, s.history.commits[i], hi, ?_, ?_⟩
  · rw [history_of_dir hs, getElem?_eq_getElem hlt]
  · rw [history_of_dir hs]
    refine hserves.last _ ?_
    rw [getLast?_eq_getElem?, hlen, Nat.add_sub_cancel, getElem?_eq_getElem hlt]

variable (env : Env) (toF64 : Decimal → F64)

theorem flushPending_inline (w : Work) : Did w (w.flushPending env false) (syncs (env.drain w.pending)) :=
  ⟨(Did.foldl _ _ { w with pending := [] }).done, (Did.foldl _ _ { w with pending := [] }).db⟩

-- Applying a write set whose tables are all there. Inline, each table's last write is
-- synced in the end.
theorem applyTxnWrites_spec (deferred : Bool) {writes : TxnWrites}
    (htables : ∀ e ∈ writes.entries, w.db.hasTable (entryTable e) = true) :
    ∃ w' calls, w.applyTxnWrites env toF64 deferred writes = (none, w') ∧ Did w w' calls ∧
      (∀ a ∈ calls, a.onEngine = true) ∧ calls.filterMap rowWrite = writes.entries.map entryRow ∧
      (deferred = false → w.db.Core → w.db.Allows calls →
        (∀ e ∈ writes.entries, w.db.isOpen (.table (entryTable e)) = true) →
        ∀ e ∈ writes.entries, w'.db.Settled (entryTable e)) := by
  obtain ⟨herr, hrows⟩ := applyEntries_spec env toF64 writes.entries w
  rw [List.find?_eq_none.mpr (by simpa using htables), map_none] at herr
  rw [takeWhile_eq_self_iff.mpr htables] at hrows
  cases hresult : applyEntries env toF64 writes.entries w with
  | mk err w₁ =>
    rw [hresult] at herr hrows
    simp only at herr hrows
    obtain ⟨calls, hdid, hengine, hcalls⟩ := hrows.calls
    cases deferred with
    | true =>
      refine ⟨w₁.flushPending env true, calls, ?_, ⟨hdid.done, hdid.db⟩, hengine, hcalls, by simp⟩
      rw [applyTxnWrites, hresult, herr]
    | false =>
      have hflush := flushPending_inline env w₁
      refine ⟨w₁.flushPending env false, calls ++ syncs (env.drain w₁.pending), ?_, hdid.trans hflush,
        ?_, ?_, ?_⟩
      · rw [applyTxnWrites, hresult, herr]
      · intro a ha
        exact (mem_append.mp ha).elim (hengine a) (onEngine_syncs a)
      · rw [filterMap_append, hcalls, rowWrites_syncs, append_nil]
      · intro _ hcore hgood hopen e he
        obtain ⟨hgood, hgood'⟩ := allows_append.mp hgood
        have hcore' : w₁.db.Core := hdid.db ▸ hcore.actAll hgood
        have hopen' : w₁.db.isOpen (.table (entryTable e)) = true := by
          rw [hdid.db]
          exact isOpen_actAll hengine (hopen e he)
        have hcov := hrows.covered (entryTable e) (hopen e he)
          (.inl (mem_map.mpr ⟨entryRow e, mem_map_of_mem he, rfl⟩))
        obtain ⟨i, pos, hmem, hpos, hlen⟩ := hcov.exists_commit hcore' hopen'
        rw [← hdid.db] at hgood'
        have hgrows := grows_actAll hcore' hgood' onEngine_syncs (by rw [rowWrites_syncs]; simp)
        obtain ⟨recs, hrec, hnil⟩ := hgrows.records (entryTable e)
        rw [rowWrites_syncs] at hnil
        obtain rfl : recs = [] := map_eq_nil_iff.mp hnil
        refine ⟨pos, ?_, ?_⟩
        · rw [hflush.db]
          exact synced_syncs hcore' hgood' ((env.drain_perm _).mem_iff.mpr hmem) hopen' hpos
        · rw [hflush.db, hrec, append_nil]
          exact hlen

end Work

end Skaidb.Exec
