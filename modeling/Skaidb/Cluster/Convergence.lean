import Skaidb.Cluster.Repair
import Skaidb.Storage.Engine.Deliveries

namespace Skaidb.Cluster

open Skaidb.Base Skaidb.Exec Skaidb.Storage Skaidb.Types List Option Table

section Repair

namespace RepairState

structure Refilled (s s' : RepairState) : Prop where
  self : s'.self = s.self
  peer : s'.peer = s.peer
  pull : s'.pull = s.pull
  push : s'.push = s.push
  found : s'.found = s.found

theorem refilled_fillLocal (s : RepairState) : Refilled s s.fillLocal := by
  unfold fillLocal
  split <;> exact ⟨rfl, rfl, rfl, rfl, rfl⟩

variable {s s' : RepairState} (env : RepairEnv)

theorem refilled_scanPage (hok : s.scanPage env retries = .ok s') : Refilled s s' := by
  induction retries generalizing s with
  | zero => cases hok
  | succ retries ih =>
    rw [scanPage] at hok
    split at hok
    · cases hok
      exact ⟨rfl, rfl, rfl, rfl, rfl⟩
    · cases hok
    · obtain ⟨hself, hpeer, hpull, hpush, hfound⟩ := ih hok
      exact ⟨hself, hpeer, hpull, hpush, hfound⟩
    · cases hok

theorem refilled_fill (hok : s.fillLocal.fillRemote env = .ok s') : Refilled s s' := by
  obtain ⟨hself, hpeer, hpull, hpush, hfound⟩ := s.refilled_fillLocal
  unfold fillRemote at hok
  split at hok
  · obtain ⟨hself', hpeer', hpull', hpush', hfound'⟩ := refilled_scanPage env hok
    exact ⟨hself'.trans hself, hpeer'.trans hpeer, hpull'.trans hpull, hpush'.trans hpush,
      hfound'.trans hfound⟩
  · cases hok
    exact ⟨hself, hpeer, hpull, hpush, hfound⟩

structure Compared (s s' : RepairState) : Prop where
  self : s'.self = s.self
  peer : s'.peer = s.peer
  found : (s'.found = s.found ∧ s'.pull = s.pull ∧ s'.push = s.push) ∨
    ∃ row, s'.found = s.found ++ [row]

theorem compared_offerPush (owned : Bytes → Bool) (s : RepairState) (row : BatchRow) :
    Compared s (s.offerPush owned row) := by
  unfold offerPush
  split
  · exact ⟨rfl, rfl, .inr ⟨row, rfl⟩⟩
  · exact ⟨rfl, rfl, .inl ⟨rfl, rfl, rfl⟩⟩

theorem compared_offerPull (owned : Bytes → Bool) (s : RepairState) (row : BatchRow) :
    Compared s (s.offerPull owned row) := by
  unfold offerPull
  split
  · exact ⟨rfl, rfl, .inr ⟨row, rfl⟩⟩
  · exact ⟨rfl, rfl, .inl ⟨rfl, rfl, rfl⟩⟩

theorem compared_mergeStep (hstep : s.mergeStep ownedBySelf ownedByPeer = some s') : Compared s s' := by
  have hpush t row := compared_offerPush ownedByPeer t row
  have hpull t row := compared_offerPull ownedBySelf t row
  unfold mergeStep at hstep
  split at hstep
  · cases hstep
  · cases hstep
    obtain ⟨hs, hp, hf⟩ := hpush s.popMine _
    exact ⟨hs, hp, hf⟩
  · cases hstep
    obtain ⟨hs, hp, hf⟩ := hpull s.popTheirs _
    exact ⟨hs, hp, hf⟩
  case h_4 l _ r _ _ _ =>
    split_ifs at hstep <;> cases hstep
    · obtain ⟨hs, hp, hf⟩ := hpush s.popMine l
      exact ⟨hs, hp, hf⟩
    · obtain ⟨hs, hp, hf⟩ := hpull s.popTheirs r
      exact ⟨hs, hp, hf⟩
    · obtain ⟨hs, hp, hf⟩ := hpush s.popMine.popTheirs l
      exact ⟨hs, hp, hf⟩
    · obtain ⟨hs, hp, hf⟩ := hpull s.popMine.popTheirs r
      exact ⟨hs, hp, hf⟩
    · exact ⟨rfl, rfl, .inl ⟨rfl, rfl, rfl⟩⟩

theorem Compared.found_starts (h : Compared s s') : s.found <+: s'.found := by
  rcases h.found with ⟨hf, -⟩ | ⟨row, hf⟩
  · exact hf ▸ prefix_rfl
  · exact ⟨[row], hf.symm⟩

theorem repairApplyPull_of_nil (h : s.pull = []) : s.repairApplyPull env = s := by
  unfold repairApplyPull
  rw [h]
  rfl

theorem repairSendPush_of_nil (h : s.push = []) : s.repairSendPush env = s := by
  unfold repairSendPush
  rw [h]
  rfl

theorem flushFull_of_nil (hpull : s.pull = []) (hpush : s.push = []) : s.flushFull env = s := by
  unfold flushFull
  dsimp only
  rw [repairApplyPull_of_nil env hpull, ite_self, repairSendPush_of_nil env hpush, ite_self]

@[simp] theorem found_repairApplyPull (s : RepairState) : (s.repairApplyPull env).found = s.found := by
  unfold repairApplyPull
  split <;> rfl

@[simp] theorem found_repairSendPush (s : RepairState) : (s.repairSendPush env).found = s.found := by
  unfold repairSendPush
  split
  · rfl
  · dsimp only
    split <;> rfl

@[simp] theorem found_flushFull (s : RepairState) : (s.flushFull env).found = s.found := by
  unfold flushFull
  dsimp only
  split_ifs <;> simp

variable (ownedBySelf ownedByPeer : Bytes → Bool) (env : RepairEnv)

theorem loop_succ {s : RepairState} :
    (∃ e, loop ownedBySelf ownedByPeer env (fuel + 1) s = (s.fillLocal, some (.error e))) ∨
    ∃ filled, Refilled s filled ∧ ((∃ next, filled.mergeStep ownedBySelf ownedByPeer = some next ∧
        loop ownedBySelf ownedByPeer env (fuel + 1) s =
          loop ownedBySelf ownedByPeer env fuel (next.flushFull env)) ∨
      ∃ result, loop ownedBySelf ownedByPeer env (fuel + 1) s =
        ((filled.repairApplyPull env).repairSendPush env, result)) := by
  rw [loop]
  split
  · exact .inl ⟨_, rfl⟩
  case h_2 filled hfill =>
    refine .inr ⟨filled, refilled_fill env hfill, ?_⟩
    split
    case h_1 next hnext => exact .inl ⟨next, hnext, rfl⟩
    · exact .inr ⟨_, rfl⟩

theorem loop_found_starts (fuel : Nat) (s : RepairState) :
    s.found <+: (loop ownedBySelf ownedByPeer env fuel s).1.found := by
  induction fuel generalizing s with
  | zero => exact prefix_rfl
  | succ fuel ih =>
    rcases loop_succ ownedBySelf ownedByPeer env with
      ⟨e, heq⟩ | ⟨filled, hfill, ⟨next, hnext, heq⟩ | ⟨result, heq⟩⟩
    · rw [heq, s.refilled_fillLocal.found]
    · rw [heq, ← hfill.found]
      refine (compared_mergeStep hnext).found_starts.trans ?_
      have hrest := ih (next.flushFull env)
      rwa [found_flushFull] at hrest
    · rw [heq, found_repairSendPush, found_repairApplyPull, hfill.found]

theorem loop_idle (hpull : s.pull = []) (hpush : s.push = [])
    (hidle : (loop ownedBySelf ownedByPeer env fuel s).1.found = []) :
    (loop ownedBySelf ownedByPeer env fuel s).1.self = s.self ∧
      (loop ownedBySelf ownedByPeer env fuel s).1.peer = s.peer := by
  induction fuel generalizing s with
  | zero => exact ⟨rfl, rfl⟩
  | succ fuel ih =>
    rcases loop_succ ownedBySelf ownedByPeer env with
      ⟨e, heq⟩ | ⟨filled, hfill, ⟨next, hnext, heq⟩ | ⟨result, heq⟩⟩
    · rw [heq]
      exact ⟨s.refilled_fillLocal.self, s.refilled_fillLocal.peer⟩
    · have hcmp := compared_mergeStep hnext
      rw [heq] at hidle ⊢
      have hnone : next.found = [] := by
        have hsub := loop_found_starts ownedBySelf ownedByPeer env fuel (next.flushFull env)
        rw [hidle, found_flushFull] at hsub
        exact prefix_nil.mp hsub
      rcases hcmp.found with ⟨-, hl, hs⟩ | ⟨row, hf⟩
      · have hflush : next.flushFull env = next :=
          flushFull_of_nil env (hl.trans (hfill.pull.trans hpull)) (hs.trans (hfill.push.trans hpush))
        rw [hflush] at hidle ⊢
        obtain ⟨hself, hpeer⟩ := ih (hl.trans (hfill.pull.trans hpull))
          (hs.trans (hfill.push.trans hpush)) hidle
        exact ⟨hself.trans (hcmp.self.trans hfill.self), hpeer.trans (hcmp.peer.trans hfill.peer)⟩
      · rw [hf] at hnone
        simp at hnone
    · rw [heq, repairApplyPull_of_nil env (hfill.pull.trans hpull),
        repairSendPush_of_nil env (hfill.push.trans hpush)]
      exact ⟨hfill.self, hfill.peer⟩

end RepairState

theorem repairTableWith_idle (owners : Bytes → List NodeId) (self peer : NodeId) (env : RepairEnv)
    (fuel : Nat) {mine theirs : Process}
    (hidle : (repairTableWith owners self peer env fuel mine theirs).1.found = []) :
    (repairTableWith owners self peer env fuel mine theirs).1.self = mine ∧
      (repairTableWith owners self peer env fuel mine theirs).1.peer = theirs := by
  unfold repairTableWith at hidle ⊢
  dsimp only at hidle ⊢
  split_ifs at hidle ⊢ with hmatch
  · exact ⟨rfl, rfl⟩
  · exact RepairState.loop_idle _ _ env rfl rfl hidle

end Repair

section Replicas

variable (toF64 : Decimal → F64)

def delivered : Apply → Option Delivery
  | .put _ key bytes hlc => some (key, hlc, .put bytes)
  | .delete _ key hlc => some (key, hlc, .delete)
  | _ => none

-- Where a table has indexes, a row that is no document is refused.
def accepts (indexed : Bool) : Delivery → Bool
  | (_, _, .put bytes) => !indexed || (decodeDocument bytes).isSome
  | (_, _, .delete) => true

structure Replica where
  table : Table
  received : List Delivery

variable (r : Replica)

namespace Replica

def indexed : Bool := !r.table.indexes.isEmpty

def step (a : Apply) : Replica :=
  ⟨r.table.step toF64 a, ((delivered a).filter (accepts r.indexed)).toList ++ r.received⟩

def create (opts indexOpts : EngineOptions) (wall : UInt64) (indexes : List (String × List String)) :
    Replica :=
  ⟨.create opts indexOpts wall indexes, []⟩

-- No write arrives after a newer one of its key has left the active memtable.
def Timely (a : Apply) : Prop :=
  ∀ w ∈ (delivered a).filter (accepts r.indexed), InTime r.table.rows.engine r.received w.1 w.2.1
deriving Decidable

end Replica

def Replica.Holding : Prop := Holds r.table.rows r.received

-- What an apply does to the rows: the write itself, after a look at the row it
-- replaces, or a step of a worker.
inductive RowStep (rows rows' : Process) : Option Delivery → Prop
  | write (key : Bytes) (hlc : Hlc) (value : VersionValue) (tick : Tick)
      (step : rows' = rows.step (.write (.given hlc) true tick.wall tick.now key value)) :
      RowStep rows rows' (some (key, hlc, value))
  | lookWrite (key : Bytes) (hlc : Hlc) (value : VersionValue) (tick : Tick)
      (step : rows' = (rows.step (.read key)).step
        (.write (.given hlc) true tick.wall tick.now key value)) :
      RowStep rows rows' (some (key, hlc, value))
  | maintain (op : Op) (idle : op.isWrite = false) (step : rows' = rows.step op) :
      RowStep rows rows' none
  | same (step : rows' = rows) : RowStep rows rows' none

variable {toF64} {t : Table} {t' : Table}

theorem rows_of_readRow (h : t.readRow now key = (row, t')) : t'.rows = t.rows.step (.read key) :=
  congrArg (fun r => r.2.rows) h.symm

theorem rows_indexDelPrevious (hidx : t.indexes.isEmpty = false) (ticks : Ticks) (key : Bytes) :
    (t.indexDelPrevious toF64 ticks key).rows = t.rows.step (.read key) := by
  unfold indexDelPrevious
  rw [hidx]
  simp only [Bool.false_eq_true, if_false]
  split
  case h_1 old t' hread =>
    rw [indexDelAll, rows_of_readRow hread]
  case h_2 t' hread => exact rows_of_readRow hread

theorem rows_applyDelete {t : Table} {ticks : Ticks} :
    (t.applyDelete toF64 ticks key hlc).rows = (t.rows.step (.read key)).step
      (.write (.given hlc) true ticks.row.wall ticks.row.now key .delete) := by
  unfold applyDelete
  split
  case h_1 old t' hread =>
    rw [indexDelAll, writeRow, rows_of_readRow hread]
  case h_2 t' hread =>
    rw [writeRow, rows_of_readRow hread]

theorem applyPut_indexed (hidx : t.indexes.isEmpty = false) {ticks : Ticks} :
    ((decodeDocument bytes).isSome = true ∧ ∃ t', t.applyPut toF64 ticks key bytes hlc = .ok t' ∧
      t'.rows = (t.rows.step (.read key)).step
        (.write (.given hlc) true ticks.row.wall ticks.row.now key (.put bytes))) ∨
    ((decodeDocument bytes).isSome = false ∧ ∃ e, t.applyPut toF64 ticks key bytes hlc = .error e) := by
  unfold applyPut decodeDocument
  rw [hidx]
  cases Value.decode bytes with
  | error e => exact .inr ⟨rfl, _, rfl⟩
  | ok v =>
    cases v with
    | document doc =>
      refine .inl ⟨rfl, _, rfl, ?_⟩
      rw [indexPutAll, writeRow, rows_indexDelPrevious hidx]
    | _ => exact .inr ⟨rfl, _, rfl⟩

theorem rowStep_step :
    RowStep r.table.rows (r.table.step toF64 a).rows ((delivered a).filter (accepts r.indexed)) := by
  cases a with
  | put ticks key bytes hlc =>
    simp only [delivered, filter_some, accepts, Replica.indexed, Bool.not_not]
    by_cases hidx : r.table.indexes.isEmpty
    · rw [hidx, Bool.true_or, if_pos rfl, step, applyPut, if_pos hidx]
      exact .write key hlc (.put bytes) ticks.row rfl
    · rw [Bool.not_eq_true] at hidx
      rw [hidx, Bool.false_or, step]
      rcases applyPut_indexed hidx with ⟨hdoc, t', happly, hrows⟩ | ⟨hdoc, e, happly⟩
      · rw [hdoc, if_pos rfl, happly]
        exact .lookWrite key hlc (.put bytes) ticks.row hrows
      · rw [hdoc, happly]
        exact .same rfl
  | delete ticks key hlc =>
    rw [step, rows_applyDelete]
    exact .lookWrite key hlc .delete ticks.row rfl
  | maintainRows op =>
    rw [step]
    split
    · exact .same rfl
    case isFalse hop => exact .maintain op (by simpa using hop) rfl
  | maintainIndex name op =>
    rw [step]
    split
    · exact .same rfl
    · exact .same rfl

theorem mem_step_read {p : Process} : (p.step (.read key)).engine.mem = p.engine.mem := by
  show (p.engine.getVersioned key).2.mem = p.engine.mem
  unfold Engine.getVersioned
  split
  · rfl
  · split <;> rfl

theorem Replica.holding_step {r : Replica} (h : r.Holding) (htime : r.Timely a) : (r.step toF64 a).Holding := by
  have hstep : RowStep r.table.rows (r.table.step toF64 a).rows _ := rowStep_step r
  unfold Timely at htime
  unfold Holding Replica.step at *
  generalize (delivered a).filter (accepts r.indexed) = w at htime hstep ⊢
  cases hstep with
  | write key hlc value tick step =>
    rw [step]
    exact h.write (htime _ rfl) true tick.wall tick.now value
  | lookWrite key hlc value tick step =>
    have hread := h.maintain (show (Op.read key).isWrite = false from rfl)
    have hin : InTime (r.table.rows.step (.read key)).engine r.received key hlc := by
      unfold InTime
      rw [mem_step_read]
      exact htime _ rfl
    rw [step]
    exact hread.write hin true tick.wall tick.now value
  | maintain op idle step =>
    rw [step]
    exact h.maintain idle
  | same step =>
    rw [step]
    exact h

theorem length_indexes_of_readRow (h : t.readRow now key = (row, t')) : t'.indexes.length = t.indexes.length :=
  congrArg (fun r => r.2.indexes.length) h.symm

theorem length_indexes_delPrevious {t : Table} :
    (t.indexDelPrevious toF64 ticks key).indexes.length = t.indexes.length := by
  unfold indexDelPrevious
  split
  · rfl
  · split
    case h_1 old t' hread =>
      rw [indexDelAll, length_map, length_indexes_of_readRow hread]
    case h_2 t' hread => exact length_indexes_of_readRow hread

theorem length_indexes_applyPut (h : t.applyPut toF64 ticks key bytes hlc = .ok t') :
    t'.indexes.length = t.indexes.length := by
  unfold applyPut at h
  split at h
  · cases h
    rfl
  · split at h
    · cases h
    · cases h
      rw [indexPutAll, length_map, writeRow, length_indexes_delPrevious]
    · cases h

theorem length_indexes_step {t : Table} : (t.step toF64 a).indexes.length = t.indexes.length := by
  cases a with
  | put ticks key bytes hlc =>
    rw [step]
    split
    case h_1 t' h => exact length_indexes_applyPut h
    · rfl
  | delete ticks key hlc =>
    rw [step, applyDelete]
    split
    case h_1 old t' hread =>
      rw [indexDelAll, length_map, writeRow, length_indexes_of_readRow hread]
    case h_2 t' hread => rw [writeRow, length_indexes_of_readRow hread]
  | maintainRows op =>
    rw [step]
    split <;> rfl
  | maintainIndex name op =>
    rw [step]
    split
    · rfl
    · exact length_map _

theorem Replica.indexed_step : (r.step toF64 a).indexed = r.indexed := by
  have hlen : (r.table.step toF64 a).indexes.length = r.table.indexes.length :=
    length_indexes_step
  unfold Replica.indexed Replica.step
  rw [Bool.eq_iff_iff]
  simp only [Bool.not_eq_true', isEmpty_eq_false_iff, ← length_pos_iff, hlen]

theorem Replica.mem_received_run {applies : List Apply} : w ∈ (applies.foldl (Replica.step toF64) r).received ↔
      w ∈ r.received ∨ (w ∈ applies.filterMap delivered ∧ accepts r.indexed w = true) := by
  induction applies generalizing r with
  | nil => simp
  | cons a applies ih =>
    rw [foldl_cons, ih, Replica.indexed_step]
    simp only [Replica.step, mem_append, mem_toList, filter_eq_some_iff,
      mem_filterMap, mem_cons, exists_eq_or_imp]
    tauto

theorem Replica.mem_received_create (toF64 : Decimal → F64) (opts indexOpts : EngineOptions)
    (wall : UInt64) (indexes : List (String × List String)) (applies : List Apply) (w : Delivery) :
    w ∈ (applies.foldl (Replica.step toF64) (.create opts indexOpts wall indexes)).received ↔
      w ∈ applies.filterMap delivered ∧ accepts (!indexes.isEmpty) w = true := by
  have hidx : (Replica.create opts indexOpts wall indexes).indexed = !indexes.isEmpty := by
    unfold Replica.indexed Replica.create Table.create
    rw [isEmpty_map]
  rw [Replica.mem_received_run, hidx]
  simp [Replica.create]

theorem Replica.holding_run {r : Replica} {applies : List Apply}
    (hrun : Along (Replica.step toF64) Replica.Timely r applies) (h : r.Holding) :
    (applies.foldl (Replica.step toF64) r).Holding :=
  hrun.invariant (fun _ _ hs htime => Replica.holding_step hs htime) h

def SameContents (a b : Process) : Prop :=
  ∀ now now', a.engine.scan now = b.engine.scan now' ∧
    ∀ key, (a.engine.get now key).1 = (b.engine.get now' key).1

theorem sameContents_of_live {a b : Process} (ha : Tidy a) (hb : Tidy b)
    (h : ∀ key, a.engine.live key = b.engine.live key) : SameContents a b := by
  intro now now'
  refine ⟨ha.scan_congr hb h, ?_⟩
  intro key
  rw [ha.get, hb.get, h]

-- Two replicas that took the same writes, in any order and any number of times,
-- show the same rows, also after a repair that found nothing to exchange.
theorem replicas_converge (opts opts' indexOpts indexOpts' : EngineOptions) (wall wall' : UInt64)
    (indexes : List (String × List String)) (first second : List Apply)
    (hsame : ∀ w, w ∈ first.filterMap delivered ↔ w ∈ second.filterMap delivered)
    (hdistinct : Distinct (first.filterMap delivered))
    (hfirst : Along (Replica.step toF64) Replica.Timely (.create opts indexOpts wall indexes) first)
    (hsecond : Along (Replica.step toF64) Replica.Timely (.create opts' indexOpts' wall' indexes) second) :
    let mine := (first.foldl (Replica.step toF64) (.create opts indexOpts wall indexes)).table.rows
    let theirs := (second.foldl (Replica.step toF64) (.create opts' indexOpts' wall' indexes)).table.rows
    SameContents mine theirs ∧
      ∀ owners self peer env fuel, (repairTableWith owners self peer env fuel mine theirs).1.found = [] →
        SameContents (repairTableWith owners self peer env fuel mine theirs).1.self
          (repairTableWith owners self peer env fuel mine theirs).1.peer := by
  intro mine theirs
  have hmine := Replica.holding_run hfirst (Holds.fresh opts wall)
  have htheirs := Replica.holding_run hsecond (Holds.fresh opts' wall')
  have hmem := Replica.mem_received_create toF64 opts indexOpts wall indexes first
  have hmem' := Replica.mem_received_create toF64 opts' indexOpts' wall' indexes second
  have hlast : lastWriter
      (first.foldl (Replica.step toF64) (.create opts indexOpts wall indexes)).received =
      lastWriter (second.foldl (Replica.step toF64) (.create opts' indexOpts' wall' indexes)).received := by
    refine lastWriter_congr ?_ ?_
    · exact fun u hu w hw => hdistinct u ((hmem u).mp hu).1 w ((hmem w).mp hw).1
    · exact fun w => by rw [hmem, hmem', hsame]
  have hcontents : SameContents mine theirs := by
    refine sameContents_of_live hmine.tidy htheirs.tidy ?_
    intro key
    rw [hmine.live_eq, htheirs.live_eq, hlast]
  refine ⟨hcontents, ?_⟩
  intro owners self peer env fuel hidle
  obtain ⟨hself, hpeer⟩ := repairTableWith_idle owners self peer env fuel hidle
  rw [hself, hpeer]
  exact hcontents

def plainTable : Replica := .create ⟨1000, 4, 8, 16, 1000, false⟩ ⟨1000, 4, 8, 16, 1000, false⟩ 0 []

def stampedPut (value : UInt8) (hlc : Hlc) : Apply :=
  .put ⟨0, ⟨0, 0⟩, fun _ _ => ⟨0, 0⟩, fun _ _ => ⟨0, 0⟩⟩ [1] [value] hlc

theorem replicas_converge_reordered :
    let mine := ([stampedPut 7 ⟨5, 0⟩, stampedPut 8 ⟨6, 0⟩].foldl (Replica.step fun _ => ⟨0⟩)
      plainTable).table.rows
    let theirs := ([stampedPut 8 ⟨6, 0⟩, stampedPut 7 ⟨5, 0⟩, stampedPut 8 ⟨6, 0⟩].foldl
      (Replica.step fun _ => ⟨0⟩) plainTable).table.rows
    SameContents mine theirs ∧
      ∀ owners self peer env fuel, (repairTableWith owners self peer env fuel mine theirs).1.found = [] →
        SameContents (repairTableWith owners self peer env fuel mine theirs).1.self
          (repairTableWith owners self peer env fuel mine theirs).1.peer :=
  replicas_converge _ _ _ _ 0 0 [] _ _ (by intro w; simp [stampedPut, delivered]; tauto)
    (by unfold Distinct; decide) (by decide) (by decide)

-- Two writes with one stamp: each replica keeps the one that came last, and the
-- repair, which looks at stamps alone, finds nothing to exchange.
theorem equal_stamps_diverge :
    let mine := ([stampedPut 7 ⟨5, 0⟩, stampedPut 8 ⟨5, 0⟩].foldl (Replica.step fun _ => ⟨0⟩)
      plainTable).table.rows
    let theirs := ([stampedPut 8 ⟨5, 0⟩, stampedPut 7 ⟨5, 0⟩].foldl (Replica.step fun _ => ⟨0⟩)
      plainTable).table.rows
    let env : RepairEnv := ⟨false, fun _ => .rows, fun _ => .ack, fun _ _ => ⟨0, 0⟩, fun _ _ => ⟨0, 0⟩⟩
    let pass := repairTableWith (fun _ => [⟨"a"⟩, ⟨"b"⟩]) ⟨"a"⟩ ⟨"b"⟩ env 10 mine theirs
    mine.engine.scan 9 = [([1], [8])] ∧ theirs.engine.scan 9 = [([1], [7])] ∧
      pass.1.found = [] ∧ pass.2 = some (.ok 0) ∧
      pass.1.self.engine.scan 9 = [([1], [8])] ∧ pass.1.peer.engine.scan 9 = [([1], [7])] := by
  decide

end Replicas

end Skaidb.Cluster
