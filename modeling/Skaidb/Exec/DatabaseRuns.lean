import Skaidb.Exec.Standing

namespace Skaidb.Exec

open Skaidb.Types Skaidb.Storage Skaidb.Base List

-- The crash leaves the catalog readable and no directory half removed.
def Loss.Spares (loss : Loss) : Prop := loss.catalog = none ∧ loss.unlinked = []
deriving Decidable

namespace Database

variable {db : Database} (toF64 : Decimal → F64)

-- At a COMMIT every table of the write set is there, and the write set fits the format
-- of the journal.
def CommitReady (db : Database) (session : Nat) : Statement → Prop
  | .commit => ∀ writes ∈ db.txn session, Journal.Storable writes ∧
      ∀ e ∈ writes.entries, db.hasTable (Work.entryTable e) = true
  | _ => True

instance (db : Database) (session : Nat) (stmt : Statement) : Decidable (db.CommitReady session stmt) :=
  match stmt with
  | .commit => inferInstanceAs (Decidable (∀ writes ∈ db.txn session, _ ∧ ∀ e ∈ writes.entries, _))
  | .begin | .rollback | .write _ _ | .createTable _ _ _ | .dropTable _ _ | .createIndex _ _ _ _
  | .dropIndex _ _ => isTrue trivial

-- Every engine call on the way is safe and newer than what it finds, tables are not
-- missing at a COMMIT, and a crash spares the catalog and the directories.
def Good (db : Database) : DbEvent → Prop
  | .execute session deferred env stmt => db.live.isSome = true →
      db.CommitReady session stmt ∧ db.Allows (db.execute toF64 session deferred env stmt).2.done
  | .crash session deferred env stmt n _ loss => db.live.isSome = true →
      db.CommitReady session stmt ∧
        db.Allows ((db.execute toF64 session deferred env stmt).2.done.take (n + 1)) ∧ loss.Spares
  | .background store op => db.live.isSome = true → op.isWrite = false → (Action.engine store op).Good db
  | .stop loss => db.live.isSome = true → loss.catalog = none
  | .reopen env _ => db.live.isSome = false → db.Allows (db.openDatabase toF64 env).2.done
  | .crashReopen env n _ loss => db.live.isSome = false →
      db.Allows ((db.openDatabase toF64 env).2.done.take (n + 1)) ∧ loss.Spares

instance (db : Database) (event : DbEvent) : Decidable (db.Good toF64 event) :=
  match event with
  | .execute _ _ _ _ => inferInstanceAs (Decidable (_ → _ ∧ _))
  | .crash _ _ _ _ _ _ _ => inferInstanceAs (Decidable (_ → _ ∧ _ ∧ _))
  | .background _ _ => inferInstanceAs (Decidable (_ → _ → _))
  | .stop _ | .reopen _ _ => inferInstanceAs (Decidable (_ → _))
  | .crashReopen _ _ _ _ => inferInstanceAs (Decidable (_ → _ ∧ _))

structure Redo (db : Database) (writes : TxnWrites) : Prop where
  journal : db.journal = some ⟨Journal.encode writes, true⟩
  storable : Journal.Storable writes
  tables : ∀ catalog, db.loadCatalog = .ok catalog →
    ∀ e ∈ writes.entries, catalog.has (.table (Work.entryTable e)) = true

structure Dormant (db : Database) : Prop where
  core : db.Core
  file : ∃ catalog, db.loadCatalog = .ok catalog
  journal : db.journal = none ∨ ∃ writes, db.Redo writes

def Standing (db : Database) : Prop :=
  match db.live with
  | some live => Ready db live
  | none => Dormant db

section Cut

variable {actions : List Action} {loss : Loss}

theorem Core.cutAt (h : db.Core) (hgood : db.Allows (actions.take (n + 1))) (hloss : loss.Spares) :
    (db.cutAt actions n cut loss).Core := by
  rw [take_add_one] at hgood
  obtain ⟨hbefore, hduring⟩ := allows_append.mp hgood
  refine (h.actAll hbefore).crash ?_ (fun _ _ => hloss.2)
  intro a ha
  rw [ha] at hduring
  exact hduring.1

theorem file_act (h : ∃ catalog, db.loadCatalog = .ok catalog) :
    ∃ catalog, (db.act a).loadCatalog = .ok catalog := by
  cases a with
  | saveCatalog catalog => exact ⟨catalog, rfl⟩
  | _ => exact h

theorem file_actAll (h : ∃ catalog, db.loadCatalog = .ok catalog) :
    ∃ catalog, (db.actAll actions).loadCatalog = .ok catalog := by
  induction actions generalizing db with
  | nil => exact h
  | cons a actions ih => exact ih (file_act h)

theorem journal_actAll (h : ∀ a ∈ actions, a.onJournal = false) : (db.actAll actions).journal = db.journal :=
  kept_actAll (fun _ a ha => by cases a <;> first | rfl | cases ha) h

theorem catalogFile_actAll (h : ∀ a ∈ actions, a.savesCatalog = false) :
    (db.actAll actions).catalogFile = db.catalogFile :=
  kept_actAll (fun _ a ha => by cases a <;> first | rfl | cases ha) h

theorem journal_cutAt_none (h : (db.actAll (actions.take n)).journal = none) :
    (db.cutAt actions n cut loss).journal = none := by
  rw [cutAt, crash, h]
  rfl

theorem journal_cutAt_synced {bytes : Bytes} (h : (db.actAll (actions.take n)).journal = some ⟨bytes, true⟩) :
    (db.cutAt actions n cut loss).journal = some ⟨bytes, true⟩ := by
  rw [cutAt, crash, h]
  rfl

theorem loadCatalog_cutAt (hloss : loss.catalog = none) (h : ∀ a ∈ actions, a.savesCatalog = false) :
    (db.cutAt actions n cut loss).loadCatalog = db.loadCatalog := by
  rw [cutAt, loadCatalog_crash hloss, loadCatalog,
    catalogFile_actAll (fun a ha => h a (mem_of_mem_take ha)), loadCatalog]

end Cut

section Phases

theorem take_phases {first calls : List Action} :
    (n < first.length ∧ (first ++ (calls ++ [last])).take n = first.take n) ∨
      (first.length ≤ n ∧ (first ++ (calls ++ [last])).take n = first ++ calls.take (n - first.length)) ∨
      ((first ++ (calls ++ [last])).take n = first ++ (calls ++ [last]) ∧
        (first ++ (calls ++ [last]))[n]? = none) := by
  rw [take_append, take_append]
  by_cases hfirst : n < first.length
  · left
    rw [Nat.sub_eq_zero_of_le hfirst.le]
    simp [hfirst]
  by_cases hcalls : n ≤ first.length + calls.length
  · right
    left
    rw [take_of_length_le (by omega), Nat.sub_eq_zero_of_le (by omega : n - first.length ≤ calls.length)]
    simp [not_lt.mp hfirst]
  · right
    right
    constructor
    · rw [take_of_length_le (by omega), take_of_length_le (by omega),
        take_of_length_le (by simp; omega)]
    · rw [getElem?_eq_none]
      simp
      omega

theorem journal_take_journalling (hn : n < (journalling session writes).length) :
    (db.actAll ((journalling session writes).take n)).journal = db.journal := by
  rcases n with _ | _ | _ | _ | n
  · rfl
  · rfl
  · rfl
  · rfl
  · simp [journalling] at hn
    omega

theorem savesCatalog_of_onEngine {a : Action} (h : a.onEngine = true) : a.savesCatalog = false := by
  cases a <;> first | rfl | cases h

section

variable {calls : List Action} (hengine : ∀ a ∈ calls, a.onEngine = true)

include hengine

theorem journal_after_journalling :
    (db.actAll (journalling session writes ++ calls)).journal = some ⟨Journal.encode writes, true⟩ := by
  rw [actAll_append, (files_actAll _ hengine).2.2]
  exact actAll_journalling.1

theorem savesCatalog_commit :
    ∀ a ∈ journalling session writes ++ (calls ++ [.removeJournal]), a.savesCatalog = false :=
  forall_mem_append.mpr ⟨by simp [journalling, Action.savesCatalog], forall_mem_append.mpr
    ⟨fun a ha => savesCatalog_of_onEngine (hengine a ha), by simp [Action.savesCatalog]⟩⟩

theorem journal_cut_commit (hjournal : db.journal = none) :
    (db.cutAt (journalling session writes ++ (calls ++ [.removeJournal])) n cut loss).journal = none ∨
      (db.cutAt (journalling session writes ++ (calls ++ [.removeJournal])) n cut loss).journal =
        some ⟨Journal.encode writes, true⟩ := by
  obtain ⟨hn, htake⟩ | ⟨-, htake⟩ | ⟨htake, -⟩ :=
    take_phases
  · left
    refine journal_cutAt_none ?_
    rw [htake, journal_take_journalling hn, hjournal]
  · right
    refine journal_cutAt_synced ?_
    rw [htake]
    exact journal_after_journalling (fun a ha => hengine a (mem_of_mem_take ha))
  · left
    refine journal_cutAt_none ?_
    rw [htake, ← append_assoc, actAll_append]
    rfl

end

end Phases

theorem loadCatalog_congr {db' : Database} (h : db'.catalogFile = db.catalogFile) :
    db'.loadCatalog = db.loadCatalog := by
  rw [loadCatalog, h, loadCatalog]

section Up

variable {live : Live} {loss : Loss}

theorem commit_none (htxn : db.txn session = none) :
    (db.execute toF64 session deferred env .commit).2 = Work.ofDatabase db := by
  rw [execute, Work.execute, Work.commit, show (Work.ofDatabase db).db.txn session = _ from htxn]

section

variable (h : Ready db live)

include h

theorem Ready.commit {calls : List Action} (hengine : ∀ a ∈ calls, a.onEngine = true)
    (hgood : db.Allows (journalling session writes ++ (calls ++ [.removeJournal]))) :
    Ready (db.actAll (journalling session writes ++ (calls ++ [.removeJournal])))
      { live with txns := Function.update live.txns session none } := by
  have hcore := h.core.actAll hgood
  have hfile : (db.actAll (journalling session writes ++ (calls ++ [.removeJournal]))).loadCatalog = db.loadCatalog :=
    loadCatalog_congr (catalogFile_actAll (savesCatalog_commit hengine))
  rw [← append_assoc, actAll_append, actAll_append] at hcore hfile ⊢
  obtain ⟨hlive, -, -⟩ := files_actAll (db.actAll (journalling session writes)) hengine
  refine ⟨hcore, ?_, hfile.trans h.file, ?_, rfl⟩
  · refine hlive.trans ?_
    simp only [actAll, journalling, foldl_cons, foldl_nil, act, h.live_eq]
    rfl
  · intro store hs
    have hopen : (db.actAll (journalling session writes)).isOpen store = true := h.isOpen store hs
    exact isOpen_actAll hengine hopen

theorem Ready.execute {stmt : Statement} (hcommit : db.CommitReady session stmt)
    (hgood : db.Allows (db.execute toF64 session deferred env stmt).2.done) :
    ∃ live', Ready (db.execute toF64 session deferred env stmt).2.db live' := by
  by_cases hstmt : stmt = .commit
  · subst hstmt
    cases htxn : db.txn session with
    | none =>
      rw [commit_none toF64 htxn]
      exact ⟨live, h⟩
    | some writes =>
      obtain ⟨-, htables⟩ := hcommit writes htxn
      obtain ⟨w, calls, heq, hdid, hengine, -⟩ := commit_spec toF64 env deferred htxn htables
      rw [heq] at hgood ⊢
      rw [show (none, w).2.db = _ from hdid.db_eq]
      rw [show (none, w).2.done = _ from hdid.done_eq] at hgood
      exact ⟨_, h.commit hengine hgood⟩
  · obtain ⟨actions, hdid, -, hready⟩ := h.returns_execute toF64 env session deferred hstmt
    rw [hdid.done_eq] at hgood
    exact hready hgood

theorem Ready.cut {stmt : Statement} (hcommit : db.CommitReady session stmt) {n cut : Nat}
    (hgood : db.Allows ((db.execute toF64 session deferred env stmt).2.done.take (n + 1))) (hloss : loss.Spares) :
    Dormant (db.cutAt (db.execute toF64 session deferred env stmt).2.done n cut loss) := by
  refine ⟨h.core.cutAt hgood hloss, ?_, ?_⟩
  · rw [cutAt, loadCatalog_crash hloss.1]
    exact file_actAll ⟨_, h.file⟩
  · by_cases hstmt : stmt = .commit
    · subst hstmt
      cases htxn : db.txn session with
      | none =>
        left
        rw [commit_none toF64 htxn]
        exact journal_cutAt_none (by rw [show (Work.ofDatabase db).done = [] from rfl, take_nil]; exact h.journal)
      | some writes =>
        obtain ⟨hstorable, htables⟩ := hcommit writes htxn
        obtain ⟨w, calls, heq, hdid, hengine, -⟩ := commit_spec toF64 env deferred htxn htables
        rw [heq, show (none, w).2.done = _ from hdid.done_eq]
        refine (journal_cut_commit hengine h.journal).imp_right (fun hjournal => ⟨writes, hjournal, hstorable, ?_⟩)
        intro catalog hload e he
        rw [loadCatalog_cutAt hloss.1 (savesCatalog_commit hengine), h.file] at hload
        cases hload
        rw [← h.catalog_eq]
        exact htables e he
    · obtain ⟨actions, hdid, hjournal, -⟩ := h.returns_execute toF64 env session deferred hstmt
      left
      refine journal_cutAt_none ?_
      rw [hdid.done_eq, journal_actAll (fun a ha => hjournal a (mem_of_mem_take ha))]
      exact h.journal

theorem Ready.stop (hloss : loss.catalog = none) : Dormant (db.crash none 0 loss) := by
  refine ⟨h.core.crash (by simp) nofun, ⟨live.catalog, (loadCatalog_crash hloss).trans h.file⟩, .inl ?_⟩
  rw [Database.crash, h.journal]
  rfl

theorem Ready.background {store : Store} {op : Op} (hgood : (Action.engine store op).Good db) :
    Ready (db.act (.engine store op)) live := by
  have hgood : db.Allows [.engine store op] := ⟨hgood, trivial⟩
  exact h.calls hgood (by simp [Action.onEngine])

end

end Up

section Down

variable {loss : Loss}

section Trace

variable {catalog : Catalog} {opens calls : List Action} (hopens : ∀ a ∈ opens, isOpenDir a = true)
  (hengine : ∀ a ∈ calls, a.onEngine = true)

include hopens hengine

theorem savesCatalog_open :
    ∀ a ∈ opening catalog opens calls, a.savesCatalog = false := by
  have hopen : ∀ a ∈ opens, a.savesCatalog = false := by
    intro a ha
    have hdir := hopens a ha
    cases a <;> first | rfl | cases hdir
  exact forall_mem_append.mpr ⟨forall_mem_cons.mpr ⟨rfl, hopen⟩, forall_mem_append.mpr
    ⟨fun a ha => savesCatalog_of_onEngine (hengine a ha), by simp [Action.savesCatalog]⟩⟩

theorem Core.opened (h : db.Core) (hfile : db.loadCatalog = .ok catalog)
    (hopen : ∀ store ∈ catalog.stores, ((db.act (.start catalog)).actAll opens).isOpen store = true)
    (hgood : db.Allows (opening catalog opens calls)) :
    Ready (db.actAll (opening catalog opens calls)) ⟨catalog, fun _ => none⟩ := by
  have hcore := h.actAll hgood
  have hload : (db.actAll (opening catalog opens calls)).loadCatalog = db.loadCatalog :=
    loadCatalog_congr (catalogFile_actAll (savesCatalog_open hopens hengine))
  rw [opening, ← append_assoc, actAll_append, actAll_append] at hcore hload ⊢
  obtain ⟨hlive, -, -, -⟩ := actAll_opens (db.act (.start catalog)) hopens
  obtain ⟨hlive', -, -⟩ := files_actAll (db.actAll (.start catalog :: opens)) hengine
  exact ⟨hcore, hlive'.trans hlive, hload.trans hfile, fun store hs => isOpen_actAll hengine (hopen store hs), rfl⟩

theorem journal_cut_open :
    (db.actAll ((opening catalog opens calls).take n)).journal = db.journal ∨
      ((db.actAll ((opening catalog opens calls).take n)).journal = none ∧
        (opening catalog opens calls).take n = opening catalog opens calls ∧
        (opening catalog opens calls)[n]? = none) := by
  have hoff : ∀ a ∈ Action.start catalog :: opens, a.onJournal = false := by
    refine forall_mem_cons.mpr ⟨rfl, fun a ha => ?_⟩
    have hdir := hopens a ha
    cases a <;> first | rfl | cases hdir
  rw [opening]
  obtain ⟨-, htake⟩ | ⟨-, htake⟩ | ⟨htake, hend⟩ := take_phases
  · rw [htake]
    exact .inl (journal_actAll (fun a ha => hoff a (mem_of_mem_take ha)))
  · rw [htake, actAll_append]
    refine .inl ((files_actAll _ ?_).2.2.trans (journal_actAll hoff))
    exact fun a ha => hengine a (mem_of_mem_take ha)
  · refine .inr ⟨?_, htake, hend⟩
    rw [htake, ← append_assoc, actAll_append]
    rfl

end Trace

theorem Redo.readTxnJournal {writes : TxnWrites} (h : db.Redo writes) : db.readTxnJournal = some writes := by
  rw [Database.readTxnJournal, h.journal]
  exact Journal.decode_encode h.storable

theorem readTxnJournal_none (h : db.journal = none) : db.readTxnJournal = none := by
  rw [Database.readTxnJournal, h]
  rfl

theorem Dormant.opens (h : Dormant db) (env : Env) : ∃ catalog opens calls, db.Opens toF64 env catalog opens calls := by
  obtain ⟨catalog, hfile⟩ := h.file
  obtain ⟨opens, calls, hopens⟩ := openDatabase_spec toF64 env h.core hfile (by
    intro writes hread
    obtain hnone | ⟨writes', hredo⟩ := h.journal
    · cases (readTxnJournal_none hnone).symm.trans hread
    · obtain rfl := Option.some.inj (hredo.readTxnJournal.symm.trans hread)
      exact hredo.tables catalog hfile)
  exact ⟨catalog, opens, calls, hopens⟩

theorem Dormant.reopen (h : Dormant db) (hgood : db.Allows (db.openDatabase toF64 env).2.done) :
    ∃ w live, db.openDatabase toF64 env = (none, w) ∧ Ready w.db live := by
  obtain ⟨catalog, opens, calls, ho⟩ := h.opens toF64 env
  rw [ho.done_eq] at hgood
  exact ⟨_, _, Prod.ext ho.returns rfl, ho.db_eq ▸ h.core.opened ho.dirs ho.engine ho.file ho.isOpen hgood⟩

theorem Dormant.cut (h : Dormant db) {n cut : Nat}
    (hgood : db.Allows ((db.openDatabase toF64 env).2.done.take (n + 1))) (hloss : loss.Spares) :
    Dormant (db.cutAt (db.openDatabase toF64 env).2.done n cut loss) := by
  refine ⟨h.core.cutAt hgood hloss, ?_, ?_⟩
  · rw [cutAt, loadCatalog_crash hloss.1]
    exact file_actAll h.file
  · obtain ⟨catalog, opens, calls, ho⟩ := h.opens toF64 env
    rw [ho.done_eq]
    obtain hsame | ⟨hnone, -⟩ := journal_cut_open ho.dirs ho.engine
    · obtain hjournal | ⟨writes, hredo⟩ := h.journal
      · exact .inl (journal_cutAt_none (hsame.trans hjournal))
      · refine .inr ⟨writes, journal_cutAt_synced (hsame.trans hredo.journal), hredo.storable, ?_⟩
        intro catalog' hload
        exact hredo.tables catalog' ((loadCatalog_cutAt hloss.1 (savesCatalog_open ho.dirs ho.engine)).symm.trans hload)
    · exact .inl (journal_cutAt_none hnone)

end Down

theorem standing_step {event : DbEvent} (h : db.Standing) (hgood : db.Good toF64 event) :
    (db.step toF64 event).Standing := by
  cases hlive : db.live with
  | some live =>
    have hsome : db.live.isSome = true := by rw [hlive]; rfl
    have hready : Ready db live := by simpa only [Standing, hlive] using h
    cases event with
    | execute session deferred env stmt =>
      obtain ⟨hcommit, hallows⟩ := hgood hsome
      obtain ⟨live', hready'⟩ := hready.execute toF64 hcommit hallows
      simp only [step, hlive, Standing, hready'.live_eq]
      exact hready'
    | crash session deferred env stmt n cut loss =>
      obtain ⟨hcommit, hallows, hloss⟩ := hgood hsome
      simp only [step, hlive]
      exact hready.cut toF64 hcommit hallows hloss
    | background store op =>
      simp only [step, hlive]
      split_ifs with hop
      · exact h
      · have hready' := hready.background (hgood hsome (by simpa using hop))
        simp only [Standing, hready'.live_eq]
        exact hready'
    | stop loss =>
      simp only [step, hlive]
      exact hready.stop (hgood hsome)
    | reopen env loss | crashReopen env n cut loss => simpa only [step, hlive] using h
  | none =>
    have hnone : db.live.isSome = false := by rw [hlive]; rfl
    have hdormant : Dormant db := by simpa only [Standing, hlive] using h
    cases event with
    | reopen env loss =>
      obtain ⟨w, live, heq, hready⟩ := hdormant.reopen toF64 (hgood hnone)
      simp only [step, hlive, heq, Standing, hready.live_eq]
      exact hready
    | crashReopen env n cut loss =>
      obtain ⟨hallows, hloss⟩ := hgood hnone
      simp only [step, hlive]
      exact hdormant.cut toF64 hallows hloss
    | execute session deferred env stmt | crash session deferred env stmt n cut loss | background store op
    | stop loss => simpa only [step, hlive] using h

theorem standing_create {opts : EngineOptions} (h : opts.ephemeral = false) : (create opts).Standing :=
  ⟨⟨h, by rintro store s ⟨⟩⟩, ⟨_, rfl⟩, .inl rfl⟩

end Database

end Skaidb.Exec
