import Skaidb.Storage.Engine.Contents
import Skaidb.Storage.Engine.Upkeep
import Skaidb.Storage.Recovery.Durability

namespace Skaidb.Storage

open Skaidb.Base List Option History

section Contents

def contents (records : List WalRecord) : Bytes → Option Bytes :=
  records.foldl (fun rows r => Function.update rows r.key (versionToValue r.op)) (fun _ => none)

@[simp] theorem contents_nil : contents [] = fun _ => none := rfl

theorem contents_concat (records : List WalRecord) (r : WalRecord) :
    contents (records ++ [r]) = Function.update (contents records) r.key (versionToValue r.op) :=
  foldl_append

theorem contents_cases (records : List WalRecord) (key : Bytes) :
    ((∀ r ∈ records, r.key ≠ key) ∧ contents records key = none) ∨
      ∃ (i : Nat) (r : WalRecord), records[i]? = some r ∧ r.key = key ∧
        contents records key = versionToValue r.op ∧
        ∀ (j : Nat) (w : WalRecord), i < j → records[j]? = some w → w.key ≠ key := by
  induction records using reverseRecOn with
  | nil => exact .inl ⟨by simp, rfl⟩
  | append_singleton records r ih =>
    rw [contents_concat]
    by_cases hkey : r.key = key
    · refine .inr ⟨records.length, r, by simp, hkey, by rw [← hkey, Function.update_self], ?_⟩
      intro j w hj hw
      rw [getElem?_eq_none (by simp; omega)] at hw
      cases hw
    · rw [Function.update_of_ne (Ne.symm hkey)]
      obtain ⟨hnone, hval⟩ | ⟨i, w, hi, hw, hval, hlast⟩ := ih
      · refine .inl ⟨?_, hval⟩
        intro w hw
        obtain hw | hw := mem_append.mp hw
        · exact hnone w hw
        · rw [mem_singleton.mp hw]
          exact hkey
      · have hlt := (List.getElem?_eq_some_iff.mp hi).1
        refine .inr ⟨i, w, by rw [getElem?_append_left hlt, hi], hw, hval, ?_⟩
        intro j u hj hu
        by_cases hin : j < records.length
        · exact hlast j u hj (by rwa [getElem?_append_left hin] at hu)
        · obtain ⟨hjlt, -⟩ := List.getElem?_eq_some_iff.mp hu
          obtain rfl : j = records.length := by
            simp only [length_append, length_singleton] at hjlt
            omega
          rw [getElem?_concat_length] at hu
          cases hu
          exact hkey

end Contents

section Reads

variable {records : List WalRecord}

-- A stack that represents records with increasing stamps shows their contents.
theorem live_eq_contents (h : Represents Tombstone (records.map WalRecord.write) stack)
    (hincr : Increasing (records.map WalRecord.write)) (key : Bytes) :
    ((firstHit stack key).bind liveVersion).map Prod.snd = contents records key := by
  obtain ⟨hnone, hval⟩ | ⟨i, r, hi, rfl, hval, hlast⟩ := contents_cases records key
  · rw [h.read_none, hval]
    · rfl
    · intro w hw
      obtain ⟨r, hr, rfl⟩ := mem_map.mp hw
      exact hnone r hr
  · have hread := h.read_last hincr (by rw [getElem?_map, hi]; rfl) (by
      intro j u hj hu
      rw [getElem?_map] at hu
      obtain ⟨w, hw, rfl⟩ := map_eq_some_iff.mp hu
      exact hlast j w hj hw)
    rw [hval]
    obtain ⟨hlc, key, op⟩ := r
    obtain hfirst | ⟨hfirst, hdead⟩ := hread
    · rw [show firstHit stack key = _ from hfirst]
      cases op <;> rfl
    · rw [show firstHit stack key = _ from hfirst]
      have hop : op = .delete := hdead
      rw [hop]
      rfl

end Reads

section Records

variable {p : Process} {h : History}

theorem History.records_upkeep (h : History) (hes : ∀ e ∈ es, e.upkeep = true) :
    (h.applyAll es).records = h.records := by
  induction es generalizing h with
  | nil => rfl
  | cons e es ih =>
    have hstep : (h.apply e).records = h.records := by
      have he := hes e mem_cons_self
      cases e <;> first | rfl | cases he
    exact (ih (h.apply e) (fun e' he' => hes e' (mem_cons_of_mem e he'))).trans hstep

theorem History.records_append (h : History) (records : List WalRecord) :
    (h.applyAll (records.map Effect.appendWal)).records = h.records ++ records := by
  induction records generalizing h with
  | nil => exact (append_nil _).symm
  | cons r records ih => exact (ih _).trans (append_assoc ..)

theorem records_exec_take (hpersist : p.engine.opts.ephemeral = false) (h : History) (op : Op) (cut : Nat) :
    (h.applyAll ((p.exec op).2.take cut)).records = h.records ++ (op.record p.engine).toList.take cut := by
  obtain ⟨-, es, heq, hes⟩ := p.exec_effects hpersist op
  have hmap : ((op.record p.engine).map Effect.appendWal).toList =
      (op.record p.engine).toList.map Effect.appendWal := by
    cases op.record p.engine <;> rfl
  rw [heq, hmap, take_append, applyAll, foldl_append]
  change (applyAll (applyAll h _) _).records = _
  rw [records_upkeep _ (fun e he => hes e (mem_of_mem_take he)), ← map_take,
    records_append]

theorem records_exec (hpersist : p.engine.opts.ephemeral = false) {h : History} {op : Op} :
    (h.applyAll (p.exec op).2).records = h.records ++ (op.record p.engine).toList := by
  have htake := records_exec_take hpersist h op ((p.exec op).2.length + 1)
  rwa [take_of_length_le (Nat.le_succ _), take_of_length_le] at htake
  cases op.record p.engine <;> simp

end Records

variable {op : Op}

section Commits

theorem Process.commits_step (p : Process) (h : op.isWrite = false) : (p.step op).commits = p.commits := by
  cases op with
  | write => cases h
  | _ =>
    simp only [Process.step, Process.exec]
    repeat' split
    all_goals rfl

theorem Process.commits_write (p : Process) (h : op.isWrite = true) :
    (p.step op).commits.length = p.commits.length + 1 := by
  cases op with
  | write => exact length_append
  | _ => cases h

end Commits

structure Shows (p : Process) (h : History) : Prop where
  tidy : Tidy p
  known : ∀ key v, p.engine.current key = some v → (key, v) ∈ h.writes
  live : ∀ key, p.engine.live key = contents h.records key

def History.Newer (h : History) (r : WalRecord) : Prop := ∀ w ∈ h.records, w.key = r.key → w.hlc < r.hlc
deriving Decidable

theorem History.Newer.increasing {h : History} (hnew : h.Newer r) (hincr : Increasing h.writes) :
    Increasing ((h.records ++ [r]).map WalRecord.write) := by
  rw [map_append]
  refine pairwise_append.mpr ⟨hincr, by simp, ?_⟩
  intro a ha b hb hkey
  obtain ⟨w, hw, rfl⟩ := mem_map.mp ha
  obtain rfl : b = r.write := by simpa using hb
  exact hnew w hw hkey

theorem increasing_record {h : History} (hincr : Increasing h.writes) (hnew : ∀ r ∈ op.record e, h.Newer r) :
    Increasing ((h.records ++ (op.record e).toList).map WalRecord.write) := by
  cases hr : op.record e with
  | none =>
    rw [toList_none, append_nil]
    exact hincr
  | some r => exact (hnew r hr).increasing hincr

section Step

variable {p : Process} {h h' : History} {op : Op}

theorem Shows.maintain (hs : Shows p h) (hop : op.isWrite = false) (hrec : h'.records = h.records) :
    Shows (p.step op) h' := by
  obtain ⟨htidy, hthins⟩ := hs.tidy.maintain hop
  refine ⟨htidy, ?_, ?_⟩
  · intro key v hv
    rw [writes, hrec]
    exact hs.known key v (hthins.eq_some hv)
  · intro key
    rw [hs.tidy.live_maintain hop, hrec]
    exact hs.live key

theorem Shows.write (hs : Shows p h) (hnew : h.Newer ⟨Session.stamp p.engine.clock wall stamping, key, value⟩)
    (hrec : h'.records = h.records ++ [⟨Session.stamp p.engine.clock wall stamping, key, value⟩]) :
    Shows (p.step (.write stamping sync wall now key value)) h' := by
  have habove : ∀ v, p.engine.current key = some v → v.1 ≤ Session.stamp p.engine.clock wall stamping := by
    intro v hv
    obtain ⟨w, hw, heq⟩ := mem_map.mp (hs.known key v hv)
    cases heq
    exact (hnew w hw rfl).le
  obtain ⟨htidy, hlive⟩ := hs.tidy.live_write stamping sync wall now key value habove
  have hthins := hs.tidy.thins_write stamping sync wall now key value habove
  refine ⟨htidy, ?_, ?_⟩
  · intro other v hv
    have hold := hthins.eq_some hv
    rw [writes, hrec, map_append, mem_append]
    split_ifs at hold with heq
    · cases hold
      exact .inr (by rw [heq]; exact mem_singleton.mpr rfl)
    · exact .inl (hs.known other v hold)
  · intro other
    rw [hlive, hrec, contents_concat, Function.update_apply, hs.live]

theorem Shows.step (hs : Shows p h) (hnew : ∀ r ∈ op.record p.engine, h.Newer r)
    (hrec : h'.records = h.records ++ (op.record p.engine).toList) : Shows (p.step op) h' := by
  cases hop : op.isWrite with
  | false =>
    rw [Op.record_eq_none hop] at hrec
    exact hs.maintain hop (hrec.trans (append_nil _))
  | true =>
    cases op with
    | write stamping sync wall now key value => exact hs.write (hnew _ rfl) hrec
    | _ => cases hop

end Step

namespace System

variable {s : System}

-- The directory recovers, the stamps of a key increase, an engine that is up shows what the
-- history says, and its last commit is that of the last record.
structure Serves (s : System) : Prop where
  inv : s.Inv
  increasing : Increasing s.history.writes
  shown : ∀ p, s.status = .up p → Shows p s.history
  last : ∀ pos, s.history.commits.getLast? = some pos → pos + 1 = s.history.records.length

def Fresh (s : System) (event : Event) : Prop :=
  match event, s.status with
  | .op op, .up p | .crash op _ _, .up p => ∀ r ∈ op.record p.engine, s.history.Newer r
  | _, _ => True

instance (s : System) (event : Event) : Decidable (s.Fresh event) :=
  match event, s with
  | .op op, ⟨_, .up p, h⟩ | .crash op _ _, ⟨_, .up p, h⟩ =>
    inferInstanceAs (Decidable (∀ r ∈ op.record p.engine, h.Newer r))
  | .reopen _, ⟨_, .up _, _⟩ | .op _, ⟨_, .down _, _⟩ | .crash _ _ _, ⟨_, .down _, _⟩
  | .reopen _, ⟨_, .down _, _⟩ => isTrue trivial

theorem safe_crash (h : s.Safe (.op op)) : s.Safe (.crash op cut kept) := by
  obtain ⟨opts, status, hist⟩ := s
  cases status <;> exact h

theorem fresh_crash (h : s.Fresh (.op op)) : s.Fresh (.crash op cut kept) := by
  obtain ⟨opts, status, hist⟩ := s
  cases status <;> exact h

theorem safe_clearReadCache (s : System) : s.Safe (.op .clearReadCache) := by
  obtain ⟨opts, status, hist⟩ := s
  cases status with
  | up p =>
    intro hseals
    cases hseals
  | down d => trivial

theorem fresh_of_not_write (h : op.isWrite = false) : s.Fresh (.op op) := by
  obtain ⟨opts, status, hist⟩ := s
  cases status with
  | up p =>
    intro r hr
    rw [Op.record_eq_none h] at hr
    cases hr
  | down d => trivial

theorem serves_init {opts : EngineOptions} (h : opts.ephemeral = false) : (init opts).Serves :=
  ⟨inv_init h, Pairwise.nil, by rintro p ⟨⟩, by rintro pos ⟨⟩⟩

variable {p : Process}

theorem Inv.running (h : s.Inv) (hup : s.status = .up p) : Running p s.history := by
  obtain ⟨-, hinv⟩ := h
  rwa [hup] at hinv

theorem Inv.persistent (h : s.Inv) (hup : s.status = .up p) : p.engine.opts.ephemeral = false := by
  obtain ⟨_, _, _, _, _, _, _, ht⟩ := (h.running hup).kept.tracks
  exact ht.persistent

theorem Inv.reopens (h : s.Inv) (hdown : s.status = .down d) (wall : UInt64) :
    ∃ t, openWithOptions s.opts d wall = some t ∧ (Process.ofSession t).Sound ∧
      Represents Tombstone s.history.writes t.engine.layers ∧ ∀ key, t.engine.readCache.get key = none := by
  obtain ⟨hpersist, hinv⟩ := h
  rw [hdown] at hinv
  obtain ⟨⟨l0, levels, gone, inTables, hr⟩, -⟩ := hinv
  obtain ⟨t, hopen, hsound, -, -, hlayers, hcache⟩ := hr.reopen hpersist wall
  exact ⟨t, hopen, hsound, hlayers ▸ hr.represents, hcache⟩

theorem step_op (hup : s.status = .up p) : s.step (.op op) =
      { s with
        status := .up (p.step op)
        history := (s.history.applyAll (p.exec op).2).acknowledge s.history.records.length op } := by
  simp only [step, hup]

theorem step_crash (hup : s.status = .up p) : s.step (.crash op cut kept) =
      { s with
        status := .down ((p.disk.applyAll ((p.exec op).2.take cut)).crash kept)
        history := (s.history.applyAll ((p.exec op).2.take cut)).crash
          ((p.disk.applyAll ((p.exec op).2.take cut)).lost kept) } := by
  simp only [step, hup]

theorem step_reopen (hdown : s.status = .down d) (hopen : openWithOptions s.opts d wall = some t) :
    s.step (.reopen wall) = { s with status := .up (.ofSession t) } := by
  simp only [step, hdown, hopen]

-- An event finds the process it needs, or leaves everything as it is.
theorem Inv.step_cases (h : s.Inv) (event : Event) : s.step event = s ∨
    (∃ p op, s.status = .up p ∧ event = .op op) ∨
    (∃ p op cut kept, s.status = .up p ∧ event = .crash op cut kept) ∨
    ∃ d wall t, s.status = .down d ∧ event = .reopen wall ∧ openWithOptions s.opts d wall = some t := by
  cases hstatus : s.status with
  | up p =>
    cases event with
    | op op => exact .inr (.inl ⟨p, op, rfl, rfl⟩)
    | crash op cut kept => exact .inr (.inr (.inl ⟨p, op, cut, kept, rfl, rfl⟩))
    | reopen wall => exact .inl (by simp only [step, hstatus])
  | down d =>
    cases event with
    | op op | crash op cut kept => exact .inl (by simp only [step, hstatus])
    | reopen wall =>
      obtain ⟨t, hopen, -⟩ := h.reopens hstatus wall
      exact .inr (.inr (.inr ⟨d, wall, t, rfl, rfl, hopen⟩))

theorem records_op (h : s.Inv) (hup : s.status = .up p) (op : Op) :
    (s.step (.op op)).history.records = s.history.records ++ (op.record p.engine).toList := by
  rw [step_op hup]
  exact (acknowledge_records _).1.trans (records_exec (h.persistent hup))

section History

theorem Inv.durable_le (h : s.Inv) : s.history.durable ≤ s.history.records.length := by
  cases hstatus : s.status with
  | up p => exact (h.running hstatus).durable_le
  | down d =>
    obtain ⟨-, hinv⟩ := h
    rw [hstatus] at hinv
    obtain ⟨⟨_, _, _, _, hr⟩, -⟩ := hinv
    exact hr.durable_le_length

theorem Inv.synced_lt (h : s.Inv) (hi : i ∈ s.history.synced) : i < s.history.durable := by
  cases hstatus : s.status with
  | up p => exact (h.running hstatus).synced i hi
  | down d =>
    obtain ⟨-, hinv⟩ := h
    rw [hstatus] at hinv
    exact hinv.2.1 i hi

theorem Inv.reopen_up (h : s.Inv) : ∃ p, (s.step (.reopen wall)).status = .up p := by
  cases hstatus : s.status with
  | up p => exact ⟨p, by simp only [step, hstatus]⟩
  | down d =>
    obtain ⟨t, hopen, -⟩ := h.reopens hstatus wall
    exact ⟨.ofSession t, by rw [step_reopen hstatus hopen]⟩

theorem history_reopen (s : System) (wall : UInt64) : (s.step (.reopen wall)).history = s.history := by
  cases hstatus : s.status with
  | up p => simp only [step, hstatus]
  | down d =>
    cases hopen : openWithOptions s.opts d wall with
    | none => simp only [step, hstatus, hopen]
    | some t => rw [step_reopen hstatus hopen]

theorem commits_op (hup : s.status = .up p) {op : Op} : (s.step (.op op)).history.commits =
      s.history.commits ++ if op.isWrite then [s.history.records.length] else [] := by
  rw [step_op hup]
  have heq := (s.history.applyAll_commits (p.exec op).2).1
  cases op <;> simp [acknowledge, Op.isWrite, heq]

theorem synced_op (s : System) : s.history.synced ⊆ (s.step (.op op)).history.synced := by
  intro i hi
  cases hstatus : s.status with
  | down d => simpa only [step, hstatus] using hi
  | up p =>
    rw [step_op hstatus]
    have heq := (s.history.applyAll_commits (p.exec op).2).2
    cases op <;> simp [acknowledge, heq, hi]

theorem synced_sync (hup : s.status = .up p) (hi : s.history.commits[i]? = some pos) :
    pos ∈ (s.step (.op (.sync i))).history.synced := by
  rw [step_op hup]
  have heq := (s.history.applyAll_commits (p.exec (.sync i)).2).1
  simp [acknowledge, heq, hi]

theorem durable_op (h : s.Inv) : s.history.durable ≤ (s.step (.op op)).history.durable := by
  cases hstatus : s.status with
  | down d => simp only [step, hstatus, le_refl]
  | up p =>
    rw [step_op hstatus, (acknowledge_records _).2]
    exact durable_applyAll h.durable_le _

theorem Inv.durable_crash (h : s.Inv) (op : Op) (cut kept : Nat) :
    s.history.durable ≤ (s.step (.crash op cut kept)).history.durable := by
  cases hstatus : s.status with
  | down d => simp only [step, hstatus, le_refl]
  | up p =>
    rw [step_crash hstatus]
    exact durable_applyAll h.durable_le _

theorem records_crash (h : s.Inv) (hup : s.status = .up p) (hsafe : s.Safe (.crash op cut kept)) :
    (s.step (.crash op cut kept)).history.records <+:
        s.history.records ++ (op.record p.engine).toList.take cut ∧
      s.history.durable ≤ (s.step (.crash op cut kept)).history.records.length := by
  constructor
  · rw [step_crash hup, ← records_exec_take (h.persistent hup) s.history op cut]
    exact take_prefix _ _
  · exact (h.durable_crash op cut kept).trans (inv_step h hsafe).durable_le

theorem synced_crash (s : System) : (s.step (.crash op cut kept)).history.synced = s.history.synced := by
  cases hstatus : s.status with
  | down d => simp only [step, hstatus]
  | up p =>
    rw [step_crash hstatus]
    exact (s.history.applyAll_commits _).2

theorem records_idle (h : s.Inv) (hop : op.isWrite = false) (hsafe : s.Safe (.crash op cut kept)) :
    (s.step (.crash op cut kept)).history.records <+: s.history.records ∧
      s.history.durable ≤ (s.step (.crash op cut kept)).history.records.length := by
  cases hstatus : s.status with
  | down d =>
    rw [show s.step (.crash op cut kept) = s by simp only [step, hstatus]]
    exact ⟨prefix_rfl, h.durable_le⟩
  | up p =>
    have hrec := records_crash h hstatus hsafe
    rwa [Op.record_eq_none hop, toList_none, take_nil, append_nil] at hrec

end History

theorem shows_reopen (h : s.Serves) (hdown : s.status = .down d)
    (hopen : openWithOptions s.opts d wall = some t) : Shows (.ofSession t) s.history := by
  obtain ⟨t', hopen', hsound, hrep, hcache⟩ := h.inv.reopens hdown wall
  obtain rfl := Option.some.inj (hopen.symm.trans hopen')
  refine ⟨⟨hsound, hrep.ordered h.increasing, ?_⟩, ?_, live_eq_contents hrep h.increasing⟩
  · intro key r hr
    rw [show (Process.ofSession t).engine.readCache.get key = none from hcache key] at hr
    cases hr
  · intro key v hv
    obtain ⟨layer, hl, hlv⟩ := exists_of_firstHit_eq_some hv
    exact hrep.known layer hl key v hlv

theorem Serves.last_op (h : s.Serves) (hup : s.status = .up p) (op : Op) (pos : Nat)
    (hpos : (s.step (.op op)).history.commits.getLast? = some pos) :
    pos + 1 = (s.step (.op op)).history.records.length := by
  rw [commits_op hup] at hpos
  rw [records_op h.inv hup]
  cases hop : op.isWrite with
  | true =>
    rw [hop, if_pos rfl, getLast?_concat] at hpos
    cases op with
    | write stamping sync wall now key value =>
      cases hpos
      rw [length_append]
      rfl
    | _ => cases hop
  | false =>
    rw [hop, if_neg Bool.false_ne_true, append_nil] at hpos
    rw [Op.record_eq_none hop, toList_none, append_nil]
    exact h.last pos hpos

theorem serves_step (h : s.Serves) (hsafe : s.Safe event) (hfresh : s.Fresh event) : (s.step event).Serves := by
  have hinv := inv_step h.inv hsafe
  obtain hsame | ⟨p, op, hup, rfl⟩ | ⟨p, op, cut, kept, hup, rfl⟩ | ⟨d, wall, t, hdown, rfl, hopen⟩ :=
    h.inv.step_cases event
  · rw [hsame]
    exact h
  · have hnew : ∀ r ∈ op.record p.engine, s.history.Newer r := by simpa [Fresh, hup] using hfresh
    have hrec := records_op h.inv hup op
    refine ⟨hinv, ?_, ?_, ?_⟩
    · rw [writes, hrec]
      exact increasing_record h.increasing hnew
    · rw [step_op hup] at hrec ⊢
      rintro q ⟨⟩
      exact (h.shown p hup).step hnew hrec
    · exact h.last_op hup op
  · have hnew : ∀ r ∈ op.record p.engine, s.history.Newer r := by simpa [Fresh, hup] using hfresh
    have hrec := (records_crash h.inv hup hsafe).1
    refine ⟨hinv, ?_, ?_, ?_⟩
    · have htake : s.history.records ++ (op.record p.engine).toList.take cut <+:
          s.history.records ++ (op.record p.engine).toList :=
        (prefix_append_right_inj _).mpr ( take_prefix _ _)
      exact (increasing_record h.increasing hnew).sublist ((hrec.trans htake).map _).sublist
    · rw [step_crash hup]
      rintro q ⟨⟩
    · rw [step_crash hup]
      rintro pos ⟨⟩
  · have hshows := shows_reopen h hdown hopen
    rw [step_reopen hdown hopen] at hinv ⊢
    refine ⟨hinv, h.increasing, ?_, h.last⟩
    rintro p ⟨⟩
    exact hshows

-- Through crashes and reopens the engine reads as the plain map that its surviving records make.
theorem run_refines_contents (opts : EngineOptions) (hpersist : opts.ephemeral = false) (events : List Event)
    (hrun : Along step (fun s event => s.Safe event ∧ s.Fresh event) (init opts) events)
    (hup : ((init opts).run events).status = .up p) (now : UInt64) :
    let rows := contents ((init opts).run events).history.records
    (∀ key, (p.engine.get now key).1 = rows key) ∧ (p.engine.scan now).Pairwise (fun a b => a.1 < b.1) ∧
      ∀ key bytes, (key, bytes) ∈ p.engine.scan now ↔ rows key = some bytes := by
  have hserves : ((init opts).run events).Serves :=
    Along.invariant (fun _ _ hs hgood => serves_step hs hgood.1 hgood.2) hrun (serves_init hpersist)
  obtain ⟨htidy, -, hlive⟩ := hserves.shown p hup
  refine ⟨fun key => (htidy.get now key).trans (hlive key), htidy.scan_sorted, fun key bytes => ?_⟩
  rw [htidy.mem_scan, hlive]

theorem run_refines_contents_flushed : ∃ p, ((init roomyLog).run flushFirstOfTwo).status = .up p ∧
    (p.engine.get 0 [1]).1 = some [7] ∧ ([9], [1]) ∈ p.engine.scan 0 := by
  obtain ⟨p, hup⟩ : ∃ p, ((init roomyLog).run flushFirstOfTwo).status = .up p := ⟨_, rfl⟩
  obtain ⟨hget, -, hscan⟩ := run_refines_contents roomyLog rfl flushFirstOfTwo (by decide) hup 0
  exact ⟨p, hup, (hget [1]).trans (by decide), (hscan [9] [1]).mpr (by decide)⟩

end System

end Skaidb.Storage
