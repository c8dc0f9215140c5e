import Skaidb.Exec.JournalReplay

namespace Skaidb.Exec

open Skaidb.Types Skaidb.Storage Skaidb.Base List Option Work

section Contents

theorem contents_append {old recs : List WalRecord} (hkeys : (recs.map WalRecord.key).Nodup) {r : WalRecord}
    (hr : r ∈ recs) : contents (old ++ recs) r.key = versionToValue r.op := by
  induction recs using reverseRecOn with
  | nil => cases hr
  | append_singleton recs last ih =>
    rw [map_append, nodup_append] at hkeys
    obtain ⟨hnodup, -, hdisjoint⟩ := hkeys
    rw [← append_assoc, contents_concat]
    obtain hin | hlast := mem_append.mp hr
    · have hne : r.key ≠ last.key := hdisjoint _ (mem_map_of_mem hin) _ (by simp)
      rw [Function.update_of_ne hne]
      exact ih hnodup hin
    · rw [mem_singleton.mp hlast, Function.update_self]

theorem nodup_rowsIn (writes : TxnWrites) (t : String) :
    ((Database.rowsIn t (writes.entries.map entryRow)).map Prod.fst).Nodup := by
  have hids : (writes.entries.map Prod.fst).Nodup :=
    (List.pairwise_map.mpr writes.sorted).imp (fun h => h.ne)
  rw [Database.rowsIn, List.filter_map, List.map_map, List.map_map]
  refine Nodup.map_on ?_ ((Nodup.of_map _ hids).filter _)
  intro e he e' he' heq
  obtain ⟨hmem, ht⟩ := mem_filter.mp he
  obtain ⟨hmem', ht'⟩ := mem_filter.mp he'
  have hid : e.1 = e'.1 := by
    have htable : entryTable e = entryTable e' := by
      exact (of_decide_eq_true ht).trans (of_decide_eq_true ht').symm
    exact Prod.ext htable heq
  exact inj_on_of_nodup_map hids hmem hmem' hid

end Contents

namespace Database

variable {db db' before : Database} (toF64 : Decimal → F64) {cut : Nat}

section Retains

structure Retains (db db' : Database) : Prop where
  records : ∀ t, (db'.history (.table t)).records <+: (db.history (.table t)).records
  durable : ∀ t, (db.history (.table t)).durable ≤ (db'.history (.table t)).durable

theorem Retains.trans (h : Retains db db') (h' : Retains db' db'') : Retains db db'' :=
  ⟨fun t => (h'.records t).trans (h.records t), fun t => (h.durable t).trans (h'.durable t)⟩

theorem retains_of_history (h : ∀ store, db'.history store = db.history store) : Retains db db' := by
  refine ⟨?_, ?_⟩
  · intro t
    exact (h _).symm ▸ prefix_rfl
  · intro t
    rw [h]

theorem retains_crash (h : db.Core) (hidle : ∀ a ∈ during, a.onEngine = false) :
    Retains db (db.crash during cut loss) :=
  ⟨fun _ => (history_crash h hidle).1, fun _ => (history_crash h hidle).2.1⟩

theorem Grows.retains (h : Grows db db' []) : Retains db db' := by
  refine ⟨?_, fun t => h.durable _⟩
  intro t
  obtain ⟨recs, hrec, hmap⟩ := h.records t
  obtain rfl : recs = [] := map_eq_nil_iff.mp hmap
  rw [append_nil] at hrec
  exact hrec.symm ▸ prefix_rfl

theorem retains_background (h : db.Core) {op : Op} (hop : op.isWrite = false) :
    Retains db (db.act (.engine store op)) := by
  have hrow : (Action.engine store op).rowWrite = none := rowWrite_eq_none hop
  have hgrows := grows_engine h (fun hne => absurd hrow hne)
  rw [hrow] at hgrows
  exact hgrows.retains

theorem Core.durable_le (h : db.Core) (store : Store) :
    (db.history store).durable ≤ (db.history store).records.length := by
  cases hdir : db.dirs store with
  | none => rw [history, hdir]; exact le_rfl
  | some s => rw [history_of_dir hdir]; exact (h.serves store s hdir).inv.durable_le

theorem Core.length_le_of_settled (h : db.Core) (hs : db.Settled t) :
    (db.history (.table t)).records.length ≤ (db.history (.table t)).durable := by
  obtain ⟨pos, hpos, hlen⟩ := hs
  cases hdir : db.dirs (.table t) with
  | none =>
    rw [history, hdir] at hpos
    cases hpos
  | some s =>
    rw [history_of_dir hdir] at hpos hlen ⊢
    have hlt := (h.serves _ s hdir).inv.synced_lt hpos
    omega

end Retains

section Outcomes

structure Kept (before : Database) (rows : List RowWrite) (db : Database) : Prop where
  records : ∀ t, ∃ recs : List WalRecord, recs.map (fun r => (r.key, r.op)) = rowsIn t rows ∧
    (db.history (.table t)).records <+: (before.history (.table t)).records ++ recs
  durable : ∀ t, (before.history (.table t)).durable ≤ (db.history (.table t)).durable

def Holding (writes : TxnWrites) (db : Database) : Prop :=
  ∀ e ∈ writes.entries,
    (db.history (.table (Work.entryTable e))).records.length ≤
        (db.history (.table (Work.entryTable e))).durable ∧
      contents (db.history (.table (Work.entryTable e))).records (ofLex e.1).2 =
        versionToValue (Work.entryValue e.2)

theorem Kept.retains (h : Kept before rows db) (hret : Retains db db') : Kept before rows db' := by
  refine ⟨?_, fun t => (h.durable t).trans (hret.durable t)⟩
  intro t
  obtain ⟨recs, hmap, hprefix⟩ := h.records t
  exact ⟨recs, hmap, (hret.records t).trans hprefix⟩

theorem Retains.kept (h : Retains before db) : Kept before [] db := by
  refine ⟨?_, h.durable⟩
  intro t
  exact ⟨[], rfl, by rw [append_nil]; exact h.records t⟩

theorem Grows.kept (h : Grows before db rows) : Kept before rows db := by
  refine ⟨?_, fun t => h.durable _⟩
  intro t
  obtain ⟨recs, hrec, hmap⟩ := h.records t
  exact ⟨recs, hmap, hrec ▸ prefix_rfl⟩

variable {writes : TxnWrites}

theorem Holding.retains (h : Holding writes db) (hret : Retains db db') (hcore : db'.Core) :
    Holding writes db' := by
  intro e he
  obtain ⟨hlen, hcontents⟩ := h e he
  have hdurable := hret.durable (entryTable e)
  have hle := hcore.durable_le (.table (entryTable e))
  have hsame := (hret.records (entryTable e)).eq_of_length_le (by omega)
  rw [hsame]
  exact ⟨by omega, hcontents⟩

theorem Grows.holding (h : Grows db db' (writes.entries.map entryRow)) (hcore : db'.Core)
    (hsettled : ∀ e ∈ writes.entries, db'.Settled (entryTable e)) : Holding writes db' := by
  intro e he
  refine ⟨hcore.length_le_of_settled (hsettled e he), ?_⟩
  obtain ⟨recs, hrec, hmap⟩ := h.records (entryTable e)
  have hrow : ((ofLex e.1).2, entryValue e.2) ∈ recs.map (fun r => (r.key, r.op)) := by
    rw [hmap, rowsIn]
    exact mem_map.mpr ⟨entryRow e, mem_filter.mpr
      ⟨mem_map_of_mem he, by simp [entryRow]⟩, rfl⟩
  obtain ⟨r, hr, heq⟩ := mem_map.mp hrow
  have hkeys : (recs.map WalRecord.key).Nodup := by
    have hnodup := nodup_rowsIn writes (entryTable e)
    rw [← hmap, List.map_map] at hnodup
    exact hnodup
  obtain ⟨hkey, hop⟩ := Prod.mk.inj heq
  rw [hrec, ← hkey, ← hop]
  exact contents_append hkeys hr

-- What is on disk once a COMMIT has begun and its process has died. With at most one
-- row the log itself decides.
inductive Outcome (before : Database) (writes : TxnWrites) (db : Database) : Prop
  | before (journal : db.journal = none) (kept : Kept before [] db)
  | redo (redo : db.Redo writes)
  | holding (journal : db.journal = none) (holding : Holding writes db)
  | single (e : RowId × Option Document) (entries : writes.entries = [e]) (journal : db.journal = none)
      (kept : Kept before [Work.entryRow e] db)

theorem Outcome.retains (h : Outcome before writes db) (hnone : db.journal = none)
    (hjournal : db'.journal = none) (hret : Retains db db') (hcore : db'.Core) : Outcome before writes db' := by
  cases h with
  | before _ kept => exact .before hjournal (kept.retains hret)
  | redo redo =>
    rw [redo.journal] at hnone
    cases hnone
  | holding _ holding => exact .holding hjournal (holding.retains hret hcore)
  | single e entries _ kept => exact .single e entries hjournal (kept.retains hret)

end Outcomes

section Applied

variable {first calls : List Action} {writes : TxnWrites}

theorem kept_applied (hcore : db.Core) (hfirst : ∀ a ∈ first, a.silent = true)
    (hgood : db.Allows (first ++ (calls ++ [.removeJournal]))) (hengine : ∀ a ∈ calls, a.onEngine = true)
    (hrows : calls.filterMap Action.rowWrite = writes.entries.map entryRow)
    (hopen : ∀ e ∈ writes.entries, (db.actAll first).isOpen (.table (entryTable e)) = true) :
    Kept db (writes.entries.map entryRow) (db.actAll (first ++ (calls ++ [.removeJournal]))) ∧
      ((∀ e ∈ writes.entries, (db.actAll (first ++ (calls ++ [.removeJournal]))).Settled (entryTable e)) →
        Holding writes (db.actAll (first ++ (calls ++ [.removeJournal])))) := by
  obtain ⟨hgoodFirst, hgoodRest⟩ := allows_append.mp hgood
  have hgoodCalls := (allows_append.mp hgoodRest).1
  have hcoreFirst := hcore.actAll hgoodFirst
  have hgrows : Grows (db.actAll first) ((db.actAll first).actAll calls) (writes.entries.map entryRow) := by
    rw [← hrows]
    refine grows_actAll hcoreFirst hgoodCalls hengine ?_
    rw [hrows]
    intro row hrow
    obtain ⟨e, he, rfl⟩ := mem_map.mp hrow
    exact hopen e he
  have hkept := hgrows.kept
  have hsame : ∀ store, (db.actAll first).history store = db.history store := history_actAll_silent hfirst
  rw [← append_assoc, actAll_append, actAll_append]
  refine ⟨⟨?_, ?_⟩, fun hsettled => hgrows.holding (hcoreFirst.actAll hgoodCalls) hsettled⟩
  · intro t
    rw [← hsame]
    exact hkept.records t
  · intro t
    rw [← hsame]
    exact hkept.durable t

theorem outcome_applied (hcond : deferred = false ∨ writes.entries.length ≤ 1)
    (hkept : Kept before (writes.entries.map entryRow) db) (hjournal : db.journal = none)
    (hholding : deferred = false → Holding writes db) : Outcome before writes db := by
  obtain hinline | hlen := hcond
  · exact .holding hjournal (hholding hinline)
  · cases hentries : writes.entries with
    | nil => exact .holding hjournal (by simp [Holding, hentries])
    | cons e rest =>
      rw [hentries, length_cons] at hlen
      obtain rfl : rest = [] := eq_nil_of_length_eq_zero (by omega)
      rw [hentries] at hkept
      exact .single e hentries hjournal hkept

end Applied

section Steps

variable {writes : TxnWrites} {loss : Loss}

theorem Dormant.redo_of_journal (h : Dormant db) (hstorable : Journal.Storable writes)
    (hjournal : db.journal = some ⟨Journal.encode writes, true⟩) : db.Redo writes := by
  obtain hnone | ⟨writes', hredo⟩ := h.journal
  · rw [hnone] at hjournal
    cases hjournal
  · have hread := hredo.readTxnJournal
    rw [readTxnJournal, hjournal, bind_some, Journal.decode_encode hstorable] at hread
    cases hread
    exact hredo

theorem onEngine_of_silent {a : Action} (h : a.silent = true) : a.onEngine = false := by
  cases a <;> first | rfl | cases h

theorem retains_cutAt (hcore : db.Core) {actions : List Action}
    (hsilent : ∀ a ∈ actions.take (n + 1), a.silent = true) : Retains db (db.cutAt actions n cut loss) := by
  rw [take_add_one] at hsilent
  obtain ⟨hbefore, hduring⟩ := forall_mem_append.mp hsilent
  refine (retains_of_history (history_actAll_silent hbefore)).trans (retains_crash ?_ ?_)
  · exact hcore.actAll (allows_silent hbefore)
  · intro a ha
    exact onEngine_of_silent (hduring a (mem_toList.mpr ha))

variable {live : Live}

theorem Outcome.cut_end {actions : List Action} (hout : Outcome before writes (db.actAll actions))
    (htake : actions.take n = actions) (hend : actions[n]? = none) (hready : Ready (db.actAll actions) live)
    (hdormant : Dormant (db.cutAt actions n cut loss)) : Outcome before writes (db.cutAt actions n cut loss) := by
  have hcrash : db.cutAt actions n cut loss = (db.actAll actions).crash none cut loss := by
    rw [cutAt, htake, hend]
  rw [hcrash] at hdormant ⊢
  refine hout.retains hready.journal ?_ (retains_crash hready.core (by simp)) hdormant.core
  rw [Database.crash, hready.journal]
  rfl

section Commit

variable (h : Ready db live) (htxn : db.txn session = some writes) (hcommit : db.CommitReady session .commit)
  (hcond : deferred = false ∨ writes.entries.length ≤ 1)

include h htxn hcommit hcond

theorem Ready.outcome_commit (hgood : db.Allows (db.execute toF64 session deferred env .commit).2.done) :
    Outcome db writes (db.execute toF64 session deferred env .commit).2.db := by
  obtain ⟨-, htables⟩ := hcommit writes htxn
  obtain ⟨w, calls, heq, hdid, hengine, hrows, hsettled⟩ := commit_spec toF64 env deferred htxn htables
  have hopen : ∀ e ∈ writes.entries, db.isOpen (.table (entryTable e)) = true := by
    intro e he
    refine h.isOpen _ (Catalog.mem_stores.mpr ?_)
    rw [← h.catalog_eq]
    exact htables e he
  rw [heq] at hgood ⊢
  have hsynced := fun hinline => hsettled hinline h.core hgood hopen
  rw [show (none, w).2.done = _ from hdid.done_eq] at hgood
  rw [show (none, w).2.db = _ from hdid.db_eq]
  rw [hdid.db_eq] at hsynced
  obtain ⟨hkept, hholding⟩ :=
    kept_applied h.core silent_journalling hgood hengine hrows hopen
  refine outcome_applied hcond hkept ?_ (fun hinline => hholding (hsynced hinline))
  exact (h.commit hengine hgood).journal

-- A commit that is cut off before its journal has its name has written nothing, and one
-- that is cut off before the journal is retired can be redone.
theorem Ready.outcome_cut
    (hgood : db.Allows ((db.execute toF64 session deferred env .commit).2.done.take (n + 1))) (hloss : loss.Spares) :
    Outcome db writes (db.cutAt (db.execute toF64 session deferred env .commit).2.done n cut loss) := by
  have hdormant : Dormant (db.cutAt (db.execute toF64 session deferred env .commit).2.done n cut loss) :=
    h.cut toF64 hcommit hgood hloss
  obtain ⟨hstorable, htables⟩ := hcommit writes htxn
  obtain ⟨w, calls, heq, hdid, hengine, -⟩ := commit_spec toF64 env deferred htxn htables
  have hdone : (db.execute toF64 session deferred env .commit).2.done =
      journalling session writes ++ (calls ++ [.removeJournal]) := by
    rw [heq]
    exact hdid.done_eq
  have hdb : (db.execute toF64 session deferred env .commit).2.db =
      db.actAll (db.execute toF64 session deferred env .commit).2.done := by
    rw [hdone, heq]
    exact hdid.db_eq
  obtain ⟨hn, htake⟩ | ⟨-, htake⟩ | ⟨htake, hend⟩ := take_phases
  · refine .before ?_ (Retains.kept (retains_cutAt h.core ?_))
    · refine journal_cutAt_none ?_
      rw [hdone, htake, journal_take_journalling hn, h.journal]
    · rw [hdone, take_append_of_le_length hn]
      exact fun a ha => silent_journalling a (mem_of_mem_take ha)
  · refine .redo (hdormant.redo_of_journal hstorable (journal_cutAt_synced ?_))
    rw [hdone, htake]
    exact journal_after_journalling (fun a ha => hengine a (mem_of_mem_take ha))
  · rw [← hdone] at htake hend
    have hfull : db.Allows (db.execute toF64 session deferred env .commit).2.done := by
      rwa [take_add_one, htake, hend, toList_none, append_nil] at hgood
    have houtcome := h.outcome_commit toF64 htxn hcommit hcond hfull
    obtain ⟨live', hready⟩ := h.execute toF64 hcommit hfull
    rw [hdb] at houtcome hready
    exact houtcome.cut_end htake hend hready hdormant

end Commit

theorem silent_opening {catalog : Catalog} (hopens : ∀ a ∈ opens, isOpenDir a = true) :
    ∀ a ∈ opening catalog opens [], a.silent = true :=
  forall_mem_append.mpr ⟨forall_mem_cons.mpr ⟨rfl, fun a ha => silent_of_isOpenDir (hopens a ha)⟩,
    by simp [Action.silent]⟩

theorem Dormant.savesCatalog (h : Dormant db) (env : Env) :
    (db.openDatabase toF64 env).2.db = db.actAll (db.openDatabase toF64 env).2.done ∧
      ∀ a ∈ (db.openDatabase toF64 env).2.done, a.savesCatalog = false := by
  obtain ⟨catalog, opens, calls, ho⟩ := h.opens toF64 env
  rw [ho.done_eq]
  exact ⟨ho.db_eq, savesCatalog_open ho.dirs ho.engine⟩

theorem Outcome.redo_of_journal (h : Outcome before writes db) (hjournal : db.journal ≠ none) : db.Redo writes := by
  cases h with
  | redo redo => exact redo
  | before hnone _ | holding hnone _ | single e _ hnone _ => exact absurd hnone hjournal

theorem Dormant.silent_clean (h : Dormant db) (hjournal : db.journal = none) :
    ∀ a ∈ (db.openDatabase toF64 env).2.done, a.silent = true := by
  obtain ⟨catalog, opens, calls, ho⟩ := h.opens toF64 env
  rw [ho.done_eq, ho.clean (readTxnJournal_none hjournal)]
  exact silent_opening ho.dirs

theorem Dormant.outcome_reopen (h : Dormant db) (hout : Outcome before writes db)
    (hgood : db.Allows (db.openDatabase toF64 env).2.done) :
    Outcome before writes (db.openDatabase toF64 env).2.db := by
  obtain ⟨w, live, heq, hready⟩ := h.reopen toF64 hgood
  have hdb := (h.savesCatalog toF64 env).1
  have hclear : (db.openDatabase toF64 env).2.db.journal = none := by
    rw [heq]
    exact hready.journal
  by_cases hjournal : db.journal = none
  · refine hout.retains hjournal hclear ?_ (by rw [heq]; exact hready.core)
    rw [hdb]
    exact retains_of_history (history_actAll_silent (h.silent_clean toF64 hjournal))
  · have redo := hout.redo_of_journal hjournal
    obtain ⟨catalog, opens, calls, ho⟩ := h.opens toF64 env
    obtain ⟨hrows, hsettled⟩ := ho.redo writes redo.readTxnJournal
    rw [ho.done_eq] at hgood
    have hfirst : ∀ a ∈ Action.start catalog :: opens, a.silent = true :=
      forall_mem_cons.mpr ⟨rfl, fun a ha => silent_of_isOpenDir (ho.dirs a ha)⟩
    obtain ⟨-, hholding⟩ := kept_applied h.core hfirst hgood ho.engine hrows
      (fun e he => ho.isOpen _ (Catalog.mem_stores.mpr (redo.tables catalog ho.file e he)))
    refine .holding hclear ?_
    rw [ho.db_eq]
    exact hholding (hsettled hgood)

theorem Dormant.outcome_cut (h : Dormant db) (hout : Outcome before writes db)
    (hgood : db.Allows ((db.openDatabase toF64 env).2.done.take (n + 1))) (hloss : loss.Spares) :
    Outcome before writes (db.cutAt (db.openDatabase toF64 env).2.done n cut loss) := by
  have hdormant : Dormant (db.cutAt (db.openDatabase toF64 env).2.done n cut loss) := h.cut toF64 hgood hloss
  by_cases hjournal : db.journal = none
  · have hnone : (db.cutAt (db.openDatabase toF64 env).2.done n cut loss).journal = none := by
      by_contra hne
      exact h.journal_cut toF64 hne hjournal
    refine hout.retains hjournal hnone (retains_cutAt h.core ?_) hdormant.core
    exact fun a ha => h.silent_clean toF64 hjournal a (mem_of_mem_take ha)
  · have redo := hout.redo_of_journal hjournal
    obtain ⟨catalog, opens, calls, ho⟩ := h.opens toF64 env
    have hdb := (h.savesCatalog toF64 env).1
    obtain hsame | ⟨-, htake, hend⟩ := journal_cut_open ho.dirs ho.engine
    · refine .redo (hdormant.redo_of_journal redo.storable (journal_cutAt_synced ?_))
      rw [ho.done_eq]
      exact hsame.trans redo.journal
    · rw [← ho.done_eq] at htake hend
      have hfull : db.Allows (db.openDatabase toF64 env).2.done := by
        rwa [take_add_one, htake, hend, toList_none, append_nil] at hgood
      have houtcome : Outcome before writes (db.openDatabase toF64 env).2.db :=
        h.outcome_reopen toF64 (.redo redo) hfull
      obtain ⟨w', live', heq', hready⟩ := h.reopen toF64 hfull
      have hready' : Ready (db.actAll (db.openDatabase toF64 env).2.done) live' := by
        rw [← hdb, heq']
        exact hready
      rw [hdb] at houtcome
      exact houtcome.cut_end htake hend hready' hdormant

end Steps

section Runs

variable {writes : TxnWrites}

def commitEvent (session : Nat) (deferred : Bool) : DbEvent → Prop
  | .execute s d _ .commit | .crash s d _ .commit _ _ _ => s = session ∧ d = deferred
  | _ => False

def isUpkeep : DbEvent → Bool
  | .execute _ _ _ _ | .crash _ _ _ _ _ _ _ => false
  | _ => true

structure Settling (before : Database) (writes : TxnWrites) (db : Database) : Prop where
  standing : db.Standing
  outcome : Outcome before writes db
  tables : ∀ catalog, db.loadCatalog = .ok catalog →
    ∀ e ∈ writes.entries, catalog.has (.table (Work.entryTable e)) = true

theorem Ready.tables {live : Live} (h : Ready db live)
    (htables : ∀ e ∈ writes.entries, db.hasTable (entryTable e) = true) (catalog : Catalog)
    (heq : (.ok live.catalog : Except EngineError Catalog) = .ok catalog) :
    ∀ e ∈ writes.entries, catalog.has (.table (entryTable e)) = true := by
  cases heq
  rw [← h.catalog_eq]
  exact htables

theorem loadCatalog_commit {live : Live} (h : Ready db live) (htxn : db.txn session = some writes)
    (htables : ∀ e ∈ writes.entries, db.hasTable (entryTable e) = true) :
    (db.execute toF64 session deferred env .commit).2.db.loadCatalog = .ok live.catalog ∧
      ∀ n cut loss, loss.catalog = none →
        (db.cutAt (db.execute toF64 session deferred env .commit).2.done n cut loss).loadCatalog =
          .ok live.catalog := by
  obtain ⟨w, calls, heq, hdid, hengine, -⟩ := commit_spec toF64 env deferred htxn htables
  have hsaves : ∀ a ∈ journalling session writes ++ (calls ++ [.removeJournal]), a.savesCatalog = false :=
    savesCatalog_commit hengine
  rw [heq, show (none, w).2.done = _ from hdid.done_eq, show (none, w).2.db = _ from hdid.db_eq]
  refine ⟨(loadCatalog_congr (catalogFile_actAll hsaves)).trans h.file, ?_⟩
  intro n cut loss hloss
  exact (loadCatalog_cutAt hloss hsaves).trans h.file

theorem Standing.ready_of_txn (h : db.Standing) (htxn : db.txn session = some writes) :
    ∃ live, db.live = some live ∧ Ready db live := by
  cases hlive : db.live with
  | none =>
    rw [txn, hlive] at htxn
    cases htxn
  | some live =>
    rw [Standing, hlive] at h
    exact ⟨live, rfl, h⟩

theorem settling_commit (h : db.Standing) (hgood : db.Good toF64 event)
    (hevent : commitEvent session deferred event) (htxn : db.txn session = some writes)
    (hcond : deferred = false ∨ writes.entries.length ≤ 1) : Settling db writes (db.step toF64 event) := by
  obtain ⟨live, hlive, hready⟩ := h.ready_of_txn htxn
  have hsome : db.live.isSome = true := by rw [hlive]; rfl
  have hstanding := standing_step toF64 h hgood
  cases event with
  | execute s d env stmt =>
    cases stmt with
    | commit =>
      obtain ⟨rfl, rfl⟩ := hevent
      obtain ⟨hcommit, hallows⟩ := hgood hsome
      simp only [step, hlive] at hstanding ⊢
      refine ⟨hstanding, hready.outcome_commit toF64 htxn hcommit hcond hallows, ?_⟩
      rw [(loadCatalog_commit toF64 hready htxn (hcommit writes htxn).2).1]
      exact hready.tables (hcommit writes htxn).2
    | _ => cases hevent
  | crash s d env stmt n cut loss =>
    cases stmt with
    | commit =>
      obtain ⟨rfl, rfl⟩ := hevent
      obtain ⟨hcommit, hallows, hloss⟩ := hgood hsome
      simp only [step, hlive] at hstanding ⊢
      refine ⟨hstanding, hready.outcome_cut toF64 htxn hcommit hcond hallows hloss, ?_⟩
      rw [(loadCatalog_commit toF64 hready htxn (hcommit writes htxn).2).2 n cut loss hloss.1]
      exact hready.tables (hcommit writes htxn).2
    | _ => cases hevent
  | _ => cases hevent

theorem settling_step (h : Settling before writes db) (hgood : db.Good toF64 event)
    (hevent : isUpkeep event = true) : Settling before writes (db.step toF64 event) := by
  have hstanding := standing_step toF64 h.standing hgood
  have hnow := h.standing
  cases hlive : db.live with
  | some live =>
    have hsome : db.live.isSome = true := by rw [hlive]; rfl
    rw [Standing, hlive] at hnow
    cases event with
    | background store op =>
      simp only [step, hlive] at hstanding ⊢
      split_ifs at hstanding ⊢ with hop
      · exact h
      · have hready := hnow.background (hgood hsome (by simpa using hop))
        exact ⟨hstanding, h.outcome.retains hnow.journal hready.journal
          (retains_background hnow.core (by simpa using hop)) hready.core, h.tables⟩
    | stop loss =>
      have hdormant := hnow.stop (hgood hsome)
      simp only [step, hlive] at hstanding ⊢
      refine ⟨hstanding, h.outcome.retains hnow.journal ?_ (retains_crash hnow.core (by simp)) hdormant.core, ?_⟩
      · rw [Database.crash, hnow.journal]
        rfl
      · rw [loadCatalog_crash (hgood hsome)]
        exact h.tables
    | reopen env loss | crashReopen env n cut loss => simpa only [step, hlive] using h
    | execute | crash => cases hevent
  | none =>
    have hnone : db.live.isSome = false := by rw [hlive]; rfl
    rw [Standing, hlive] at hnow
    cases event with
    | reopen env loss =>
      obtain ⟨w, live, heq, hready⟩ := hnow.reopen toF64 (hgood hnone)
      have hout := hnow.outcome_reopen toF64 h.outcome (hgood hnone)
      rw [heq] at hout
      simp only [step, hlive, heq] at hstanding ⊢
      refine ⟨hstanding, hout, ?_⟩
      obtain ⟨hdb, hsaves⟩ := hnow.savesCatalog toF64 env
      rw [heq] at hdb hsaves
      rw [show w.db = _ from hdb, loadCatalog_congr (catalogFile_actAll hsaves)]
      exact h.tables
    | crashReopen env n cut loss =>
      obtain ⟨hallows, hloss⟩ := hgood hnone
      simp only [step, hlive] at hstanding ⊢
      refine ⟨hstanding, hnow.outcome_cut toF64 h.outcome hallows hloss, ?_⟩
      rw [loadCatalog_cutAt hloss.1 (hnow.savesCatalog toF64 env).2]
      exact h.tables
    | background store op | stop loss => simpa only [step, hlive] using h
    | execute | crash => cases hevent

theorem settling_run (h : Settling before writes db) (hrun : Along (step toF64) (Good toF64) db events)
    (hevents : ∀ event ∈ events, isUpkeep event = true) : Settling before writes (db.run toF64 events) := by
  induction events generalizing db with
  | nil => exact h
  | cons event events ih =>
    obtain ⟨hevent, hrest⟩ := forall_mem_cons.mp hevents
    exact ih (settling_step toF64 h hrun.1 hevent) hrun.2 hrest

end Runs

section Reads

variable {writes : TxnWrites}

theorem Core.get (h : db.Core) (hopen : db.isOpen (.table t) = true) (now : UInt64) (key : Bytes) :
    db.get now t key = contents (db.history (.table t)).records key := by
  obtain ⟨s, p, hs, hup⟩ := isOpen_iff.mp hopen
  have hshown := (h.serves _ s hs).shown p hup
  rw [Database.get, process_of_dir hs, hup, history_of_dir hs, ← hshown.live]
  exact hshown.tidy.get now key

def AsBefore (before after : Database) (t : String) : Prop :=
  ∃ recs, recs <+: (before.history (.table t)).records ∧ (before.history (.table t)).durable ≤ recs.length ∧
    ∀ now key, after.get now t key = contents recs key

def Holds (after : Database) (e : RowId × Option Document) : Prop :=
  ∀ now, after.get now (Work.entryTable e) (ofLex e.1).2 = e.2.map encodeDocument

theorem versionToValue_entryValue {op : Option Document} :
    versionToValue (entryValue op) = op.map encodeDocument := by
  cases op <;> rfl

theorem Kept.asBefore (h : Kept before [] db) (hcore : db.Core) (hopen : db.isOpen (.table t) = true) :
    AsBefore before db t := by
  obtain ⟨recs, hmap, hprefix⟩ := h.records t
  obtain rfl : recs = [] := map_eq_nil_iff.mp hmap
  rw [append_nil] at hprefix
  exact ⟨_, hprefix, (h.durable t).trans (hcore.durable_le _), hcore.get hopen⟩

theorem Kept.single (h : Kept before [entryRow e] db) (hcore : db.Core)
    (hopen : db.isOpen (.table (entryTable e)) = true) : AsBefore before db (entryTable e) ∨ Holds db e := by
  obtain ⟨recs, hmap, hprefix⟩ := h.records (entryTable e)
  have hrows : rowsIn (entryTable e) [entryRow e] = [((ofLex e.1).2, entryValue e.2)] := by
    simp [rowsIn, entryRow]
  rw [hrows, map_eq_singleton_iff] at hmap
  obtain ⟨r, rfl, hr⟩ := hmap
  obtain ⟨hkey, hop⟩ := Prod.mk.inj hr
  obtain hall | hold := prefix_concat_iff.mp hprefix
  · right
    intro now
    rw [hcore.get hopen, hall, contents_concat, ← hkey, Function.update_self, hop, versionToValue_entryValue]
  · exact .inl ⟨_, hold, (h.durable _).trans (hcore.durable_le _), hcore.get hopen⟩

theorem Settling.reads (h : Settling before writes db) (hup : db.live.isSome = true) :
    (∀ e ∈ writes.entries, AsBefore before db (entryTable e)) ∨ ∀ e ∈ writes.entries, Holds db e := by
  obtain ⟨live, hlive⟩ := isSome_iff_exists.mp hup
  have hready := h.standing
  rw [Standing, hlive] at hready
  have hopen : ∀ e ∈ writes.entries, db.isOpen (.table (entryTable e)) = true := fun e he =>
    hready.isOpen _ (Catalog.mem_stores.mpr (h.tables _ hready.file e he))
  cases h.outcome with
  | before _ kept => exact .inl (fun e he => kept.asBefore hready.core (hopen e he))
  | redo redo =>
    have hjournal := redo.journal
    rw [hready.journal] at hjournal
    cases hjournal
  | holding _ holding =>
    right
    intro e he now
    rw [hready.core.get (hopen e he), (holding e he).2, versionToValue_entryValue]
  | single e entries _ kept =>
    have hone := kept.single hready.core (hopen e (by rw [entries]; exact mem_singleton.mpr rfl))
    simpa only [entries, forall_mem_singleton] using hone

end Reads

-- Wherever a COMMIT and the opens after it were cut off, once the database is open again
-- it has all of the transaction's writes or none.
theorem commit_all_or_none {opts : EngineOptions} (hopts : opts.ephemeral = false) {events rest : List DbEvent}
    {first : DbEvent} {session : Nat} {deferred : Bool} {writes : TxnWrites}
    (hrun : Along (step toF64) (Good toF64) (create opts) (events ++ first :: rest))
    (hfirst : commitEvent session deferred first) (hrest : ∀ event ∈ rest, isUpkeep event = true)
    (htxn : ((create opts).run toF64 events).txn session = some writes)
    (hcond : deferred = false ∨ writes.entries.length ≤ 1)
    (hup : ((create opts).run toF64 (events ++ first :: rest)).live.isSome = true) :
    (∀ e ∈ writes.entries, AsBefore ((create opts).run toF64 events)
        ((create opts).run toF64 (events ++ first :: rest)) (Work.entryTable e)) ∨
      ∀ e ∈ writes.entries, Holds ((create opts).run toF64 (events ++ first :: rest)) e := by
  obtain ⟨hbefore, hcommit, hafter⟩ := along_append.mp hrun
  have hstanding : ((create opts).run toF64 events).Standing :=
    hbefore.invariant (fun _ _ h hgood => standing_step toF64 h hgood) (standing_create hopts)
  have hsettling := settling_run toF64 (settling_commit toF64 hstanding hcommit hfirst htxn hcond) hafter hrest
  have hend : (create opts).run toF64 (events ++ first :: rest) =
      (((create opts).run toF64 events).step toF64 first).run toF64 rest := by
    rw [run, foldl_append, foldl_cons]
    rfl
  rw [hend] at hup ⊢
  exact hsettling.reads hup

section Example

def commitRetried : List DbEvent :=
  [.crashReopen (steadyEnv 60) 3 0 keepAll, .reopen (steadyEnv 80) keepAll]

theorem commit_all_or_none_twoTables :
    ∃ writes, ((create smallOptions).run noDecimals twoTables).txn 0 = some writes ∧
      ((∀ e ∈ writes.entries, AsBefore ((create smallOptions).run noDecimals twoTables)
          ((create smallOptions).run noDecimals
            (twoTables ++ .crash 0 false (steadyEnv 40) .commit 6 0 keepAll :: commitRetried)) (Work.entryTable e)) ∨
        ∀ e ∈ writes.entries, Holds ((create smallOptions).run noDecimals
          (twoTables ++ .crash 0 false (steadyEnv 40) .commit 6 0 keepAll :: commitRetried)) e) := by
  obtain ⟨writes, htxn⟩ : ∃ writes, ((create smallOptions).run noDecimals twoTables).txn 0 = some writes :=
    isSome_iff_exists.mp (by decide +kernel)
  exact ⟨writes, htxn, commit_all_or_none noDecimals rfl (by decide +kernel) ⟨rfl, rfl⟩ (by decide) htxn
    (.inl rfl) (by decide +kernel)⟩

-- With the syncs left to the caller the journal is gone before the logs are synced, and one
-- log can reach the disk without the other.
theorem deferred_commit_torn :
    ((create smallOptions).run noDecimals (twoTables ++ [.execute 0 true (steadyEnv 40) .commit,
        .stop ⟨fun store => if store = .table "a" then 10 else 0, 0, none, []⟩,
        .reopen (steadyEnv 60) keepAll])).get 0 "a" [1] = some (encodeDocument (cell 1)) ∧
      ((create smallOptions).run noDecimals (twoTables ++ [.execute 0 true (steadyEnv 40) .commit,
        .stop ⟨fun store => if store = .table "a" then 10 else 0, 0, none, []⟩,
        .reopen (steadyEnv 60) keepAll])).get 0 "b" [2] = none := by
  decide

end Example

end Database

end Skaidb.Exec
