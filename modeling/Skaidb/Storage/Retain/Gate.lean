import Mathlib.Data.List.Count
import Skaidb.Storage.Recovery.Recoverable
import Skaidb.Storage.Retain

namespace Skaidb.Storage

open Skaidb.Base List Option Disk Engine Process

def Spares (mark : Hlc) (d : Disk) (e : Effect) : Prop :=
  ∀ r, mark < r.hlc → d.replayRecords.count r ≤ (d.apply e).replayRecords.count r

def Disk.Below (d : Disk) (mark : Hlc) (n : Nat) : Prop :=
  (d.segments.get? n).all (fun records => records.all (fun r => r.hlc ≤ mark)) = true
deriving Decidable

variable {d : Disk}

theorem Disk.Below.of_segments {d' : Disk} (h : d.Below mark n)
    (heq : d'.segments.get? n = d.segments.get? n ∨ d'.segments.get? n = none) : d'.Below mark n := by
  unfold Below at *
  obtain heq | heq := heq
  · rw [heq]
    exact h
  · rw [heq]
    rfl

variable {r : WalRecord}

section Effects

variable {d : Disk}

private theorem count_flatten_filter {entries : List (Nat × List WalRecord)}
    (h : ∀ e ∈ entries, e.1 = n → r ∉ e.2) :
    ((entries.filter (fun e => e.1 ≠ n)).map Prod.snd).flatten.count r =
      (entries.map Prod.snd).flatten.count r := by
  induction entries with
  | nil => rfl
  | cons e entries ih =>
    have hrest := ih (fun x hx => h x (by simp [hx]))
    by_cases hn : e.1 = n
    · rw [filter_cons_of_neg (by simpa using hn), hrest, map_cons, flatten_cons,
        count_append, count_eq_zero.mpr (h e (by simp) hn), Nat.zero_add]
    · rw [filter_cons_of_pos (by simpa using hn), map_cons, flatten_cons, count_append,
        hrest, map_cons, flatten_cons, count_append]

private theorem count_flatten_insertEntry {records : List WalRecord} {entries : List (Nat × List WalRecord)}
    (h : ∀ e ∈ entries, e.1 = n → r ∉ e.2) :
    ((OrdMap.insertEntry n records entries).map Prod.snd).flatten.count r =
      records.count r + (entries.map Prod.snd).flatten.count r := by
  induction entries with
  | nil => simp [OrdMap.insertEntry]
  | cons e entries ih =>
    have hrest := ih (fun x hx => h x (by simp [hx]))
    rw [OrdMap.insertEntry]
    split_ifs with hlt heq
    · simp [count_append]
    · simp only [map_cons, flatten_cons, count_append,
        count_eq_zero.mpr (h e (by simp) heq.symm), Nat.zero_add]
    · simp only [map_cons, flatten_cons, count_append, hrest]
      omega

private theorem Disk.Below.not_mem (h : d.Below mark n) (hr : mark < r.hlc) :
    ∀ e ∈ d.segments.entries, e.1 = n → r ∉ e.2 := by
  rintro ⟨m, records⟩ he rfl hmem
  have hget : d.segments.get? m = some records := (OrdMap.get?_eq_some_iff ..).mpr he
  unfold Below at h
  rw [hget] at h
  have hle : r.hlc ≤ mark := by simpa using all_eq_true.mp h r hmem
  exact absurd hr (not_lt.mpr hle)

theorem spares_of_same (hseg : (d.apply e).segments = d.segments)
    (hwal : (d.apply e).wal.map WalFile.records = d.wal.map WalFile.records) : Spares mark d e := by
  intro r _
  unfold replayRecords
  rw [hseg, hwal]

theorem spares_append : Spares mark d (.appendWal record) := by
  intro r _
  cases hwal : d.wal <;> simp [replayRecords, apply, hwal, count_append]

theorem spares_sync : Spares mark d .syncWal :=
  spares_of_same rfl (by cases hwal : d.wal <;> simp [apply, hwal])

theorem spares_rename (h : d.Below mark n) : Spares mark d (.renameWal n) := by
  intro r hr
  cases hwal : d.wal with
  | none => simp [replayRecords, apply, hwal]
  | some f =>
    simp only [replayRecords, apply, hwal, OrdMap.insert, map_some, getD_some,
      map_none, getD_none, append_nil, count_append]
    rw [count_flatten_insertEntry (h.not_mem hr)]
    omega

theorem spares_create (h : ∀ r ∈ d.activeRecords, r.hlc ≤ mark) : Spares mark d .createWal := by
  intro r hr
  have hactive : ((d.wal.map WalFile.records).getD []).count r = 0 := by
    rw [count_eq_zero]
    exact fun hmem => absurd hr (not_lt.mpr (h r hmem))
  simp [replayRecords, apply, count_append, hactive]

theorem spares_removeSegment (h : d.Below mark n) : Spares mark d (.removeSegment n) := by
  intro r hr
  simp only [replayRecords, apply, OrdMap.erase, OrdMap.filter, count_append]
  rw [count_flatten_filter (h.not_mem hr)]

theorem spares_removeSegments {ns : List Nat} (h : ∀ n ∈ ns, d.Below mark n) :
    Along apply (Spares mark) d (ns.map Effect.removeSegment) := by
  induction ns generalizing d with
  | nil => trivial
  | cons n ns ih =>
    refine ⟨spares_removeSegment (h n (by simp)), ih ?_⟩
    intro m hm
    refine (h m (by simp [hm])).of_segments ?_
    simp only [apply, OrdMap.get?_erase]
    split_ifs
    · exact .inr rfl
    · exact .inl rfl

def Effect.onTables : Effect → Bool
  | .writeTable _ | .removeTable _ | .writeManifest _ => true
  | _ => false

theorem Disk.apply_onTables {e : Effect} (he : e.onTables = true) :
    (d.apply e).wal = d.wal ∧ (d.apply e).segments = d.segments := by
  cases e <;> first | exact ⟨rfl, rfl⟩ | cases he

theorem Disk.applyAll_onTables (hes : ∀ e ∈ es, e.onTables = true) :
    (d.applyAll es).wal = d.wal ∧ (d.applyAll es).segments = d.segments := by
  induction es generalizing d with
  | nil => exact ⟨rfl, rfl⟩
  | cons e es ih =>
    obtain ⟨hwal, hseg⟩ := apply_onTables (hes e (by simp))
    obtain ⟨hwal', hseg'⟩ := ih (fun x hx => hes x (by simp [hx]))
    exact ⟨hwal'.trans hwal, hseg'.trans hseg⟩

theorem spares_onTables (hes : ∀ e ∈ es, e.onTables = true) : Along apply (Spares mark) d es := by
  induction es generalizing d with
  | nil => trivial
  | cons e es ih =>
    obtain ⟨hwal, hseg⟩ := apply_onTables (hes e (by simp))
    exact ⟨spares_of_same hseg (by rw [hwal]), ih (fun x hx => hes x (by simp [hx]))⟩

end Effects

def CoveredBy (top : Option Hlc) (hlc : Hlc) : Prop := ∃ h, top = some h ∧ hlc ≤ h

structure LogCovered (e : Engine) (d : Disk) : Prop where
  active : ∀ r ∈ d.activeRecords, CoveredBy e.mem.maxHlc r.hlc
  frozen : ∀ f ∈ e.frozen, ∀ records, d.segments.get? f.walSeq = some records →
    ∀ r ∈ records, CoveredBy f.maxHlc r.hlc
  numbered : ∀ f ∈ e.frozen, f.walSeq < e.nextWalSeq
  logs : d.wal.isSome = !e.opts.ephemeral

variable {e : Engine}

theorem LogCovered.exists_wal (h : LogCovered e d) (hpersist : e.opts.ephemeral = false) :
    ∃ f, d.wal = some f := by
  refine isSome_iff_exists.mp ?_
  rw [h.logs, hpersist]
  rfl

theorem coveredBy_maxHlc {m : Memtable} : CoveredBy m.maxHlc hlc ↔ ∃ e ∈ m.iterVersions, hlc ≤ e.2.1 := by
  constructor
  · rintro ⟨top, htop, hle⟩
    obtain ⟨e, he, rfl⟩ := mem_map.mp (max?_mem htop)
    exact ⟨e, he, hle⟩
  · rintro ⟨e, he, hle⟩
    have hmem : e.2.1 ∈ m.iterVersions.map (fun e => e.2.1) := mem_map_of_mem he
    obtain ⟨top, htop⟩ := isSome_iff_exists.mp (isSome_max?_of_mem hmem)
    exact ⟨top, htop, hle.trans ((max?_eq_some_iff.mp htop).2 _ hmem)⟩

theorem CoveredBy.insert {m : Memtable} (h : CoveredBy m.maxHlc hlc) (key : Bytes) (stamp : Hlc)
    (value : VersionValue) : CoveredBy (m.insert key stamp value).maxHlc hlc := by
  rw [coveredBy_maxHlc] at h ⊢
  obtain ⟨⟨k, v⟩, he, hle⟩ := h
  by_cases hsame : k = key ∧ v.1 = stamp
  · refine ⟨(key, stamp, value), ?_, hsame.2 ▸ hle⟩
    exact (m.mem_iterVersions_insert ..).mpr (.inl ⟨rfl, rfl⟩)
  · exact ⟨(k, v), (m.mem_iterVersions_insert ..).mpr (.inr ⟨he, hsame⟩), hle⟩

theorem coveredBy_insert {m : Memtable} : CoveredBy (m.insert key stamp value).maxHlc stamp :=
  (coveredBy_maxHlc ..).mpr
    ⟨(key, stamp, value), (m.mem_iterVersions_insert ..).mpr (.inl ⟨rfl, rfl⟩), le_rfl⟩

theorem coveredBy_replay (hr : r ∈ records) : CoveredBy (Memtable.replay records).maxHlc r.hlc := by
  induction records using reverseRecOn with
  | nil => simp at hr
  | append_singleton records last ih =>
    have hreplay : Memtable.replay (records ++ [last]) =
        (Memtable.replay records).insert last.key last.hlc last.op := by
      simp [Memtable.replay]
    rw [hreplay]
    obtain hr | hr := mem_append.mp hr
    · exact (ih hr).insert ..
    · obtain rfl := mem_singleton.mp hr
      exact coveredBy_insert ..

def gateOpen (mark : Hlc) (top : Option Hlc) : Bool := top.all (fun h => h ≤ mark)

theorem CoveredBy.le (h : CoveredBy top hlc) (hopen : gateOpen mark top = true) : hlc ≤ mark := by
  obtain ⟨h, rfl, hle⟩ := h
  exact hle.trans (by simpa [gateOpen] using hopen)

theorem LogCovered.below (h : LogCovered e d) {f : FrozenMem} (hf : f ∈ e.frozen)
    (hopen : gateOpen mark f.maxHlc = true) : d.Below mark f.walSeq := by
  unfold Below
  cases hget : d.segments.get? f.walSeq with
  | none => rfl
  | some records =>
    simp only [Option.all_some, List.all_eq_true, decide_eq_true_eq]
    exact fun r hr => (h.frozen f hf records hget r hr).le hopen

theorem LogCovered.mono {e' : Engine} {d' : Disk} (h : LogCovered e d) (hopts : e'.opts = e.opts)
    (hmem : e'.mem = e.mem)
    (hfrozen : ∀ f' ∈ e'.frozen, ∃ f ∈ e.frozen, f.walSeq = f'.walSeq ∧ f.maxHlc = f'.maxHlc)
    (hseq : e'.nextWalSeq = e.nextWalSeq) (hwal : d'.wal = d.wal)
    (hseg : ∀ n, d'.segments.get? n = d.segments.get? n ∨ d'.segments.get? n = none) : LogCovered e' d' := by
  refine ⟨?_, ?_, ?_, ?_⟩
  · rw [activeRecords, hwal, hmem]
    exact h.active
  · intro f' hf' records hget
    obtain ⟨f, hf, hseq, htop⟩ := hfrozen f' hf'
    rw [← hseq] at hget
    rw [← htop]
    obtain heq | heq := hseg f.walSeq
    · exact h.frozen f hf records (heq ▸ hget)
    · rw [heq] at hget
      cases hget
  · intro f' hf'
    obtain ⟨f, hf, heq, -⟩ := hfrozen f' hf'
    rw [← heq, hseq]
    exact h.numbered f hf
  · rw [hopts, hwal]
    exact h.logs

-- Older segments than the memtable's own hold nothing the gate should keep.
def InstallSafe (mark : Hlc) (d : Disk) (top : Option Hlc) (seq : Nat) : Prop :=
  gateOpen mark top = true → ∀ n < seq, d.Below mark n

instance (mark : Hlc) (d : Disk) (top : Option Hlc) (seq : Nat) :
    Decidable (InstallSafe mark d top seq) :=
  inferInstanceAs (Decidable (_ → _))

theorem InstallSafe.mono {d' : Disk} (h : InstallSafe mark d top seq)
    (hseg : ∀ n < seq, d'.segments.get? n = d.segments.get? n ∨ d'.segments.get? n = none) :
    InstallSafe mark d' top seq :=
  fun hopen n hn => (h hopen n hn).of_segments (hseg n hn)

namespace Session

variable {mark : Hlc} {d : Disk} {s s' : Session}

-- No effect of the session on the directory has taken a record above `mark` out
-- of the log.
def Gated (mark : Hlc) (d : Disk) (s : Session) : Prop :=
  s.start = d ∧ Along Disk.apply (Spares mark) s.start s.effects

theorem Gated.emitAll (h : Gated mark d s) (hes : Along apply (Spares mark) s.disk es) :
    Gated mark d (s.emitAll es) :=
  ⟨h.1, along_append.mpr ⟨h.2, hes⟩⟩

theorem Gated.emit (h : Gated mark d s) {e : Effect} (he : Spares mark s.disk e) : Gated mark d (s.emit e) :=
  h.emitAll ⟨he, trivial⟩

-- The state every operation leaves: the log so far is spared and what it holds is covered.
structure Guarded (mark : Hlc) (d : Disk) (s : Session) : Prop where
  gated : Gated mark d s
  covered : LogCovered s.engine s.disk
  mark : s.engine.maintWatermark = mark

def gates (frozen : List FrozenMem) : List (Nat × Option Hlc) := frozen.map (fun f => (f.walSeq, f.maxHlc))

structure TableWork (s s' : Session) : Prop where
  opts : s'.engine.opts = s.engine.opts
  mark : s'.engine.maintWatermark = s.engine.maintWatermark
  mem : s'.engine.mem = s.engine.mem
  frozen : gates s'.engine.frozen = gates s.engine.frozen
  nextWalSeq : s'.engine.nextWalSeq = s.engine.nextWalSeq
  start : s'.start = s.start
  effects : ∃ es, s'.effects = s.effects ++ es ∧ ∀ e ∈ es, e.onTables = true

namespace TableWork

theorem refl (s : Session) : TableWork s s := ⟨rfl, rfl, rfl, rfl, rfl, rfl, [], by simp, by simp⟩

section

variable (h : TableWork s s')

include h

theorem trans (h' : TableWork s' s'') : TableWork s s'' := by
  obtain ⟨es, heq, hes⟩ := h.effects
  obtain ⟨es', heq', hes'⟩ := h'.effects
  refine ⟨h'.opts.trans h.opts, h'.mark.trans h.mark, h'.mem.trans h.mem, h'.frozen.trans h.frozen,
    h'.nextWalSeq.trans h.nextWalSeq, h'.start.trans h.start, es ++ es', ?_, ?_⟩
  · rw [heq', heq, append_assoc]
  · intro e he
    obtain he | he := mem_append.mp he
    · exact hes e he
    · exact hes' e he

theorem disk : s'.disk.wal = s.disk.wal ∧ s'.disk.segments = s.disk.segments := by
  obtain ⟨es, heq, hes⟩ := h.effects
  unfold Session.disk
  rw [h.start, heq, applyAll_append]
  exact applyAll_onTables hes

theorem mem_frozen {f' : FrozenMem} (hf : f' ∈ s'.engine.frozen) :
    ∃ f ∈ s.engine.frozen, f.walSeq = f'.walSeq ∧ f.maxHlc = f'.maxHlc := by
  have hmem : (f'.walSeq, f'.maxHlc) ∈ gates s'.engine.frozen := mem_map.mpr ⟨f', hf, rfl⟩
  rw [h.frozen] at hmem
  obtain ⟨f, hf, heq⟩ := mem_map.mp hmem
  exact ⟨f, hf, (Prod.mk.inj heq).1, (Prod.mk.inj heq).2⟩

theorem guarded (hg : Guarded mark d s) : Guarded mark d s' := by
  obtain ⟨es, heq, hes⟩ := h.effects
  refine ⟨?_, ?_, h.mark.trans hg.mark⟩
  · unfold Gated
    rw [h.start, heq]
    exact ⟨hg.gated.1, along_append.mpr ⟨hg.gated.2, spares_onTables hes⟩⟩
  · exact hg.covered.mono h.opts h.mem (fun _ hf => h.mem_frozen hf) h.nextWalSeq h.disk.1
      (fun n => .inl (by rw [h.disk.2]))

end

theorem emit (s : Session) {e : Effect} (he : e.onTables = true) : TableWork s (s.emit e) :=
  ⟨rfl, rfl, rfl, rfl, rfl, rfl, [e], rfl, by simpa using he⟩

theorem engine (s : Session) (hopts : e.opts = s.engine.opts)
    (hmark : e.maintWatermark = s.engine.maintWatermark) (hmem : e.mem = s.engine.mem)
    (hfrozen : gates e.frozen = gates s.engine.frozen) (hseq : e.nextWalSeq = s.engine.nextWalSeq) :
    TableWork s { s with engine := e } :=
  ⟨hopts, hmark, hmem, hfrozen, hseq, rfl, [], by simp, by simp⟩

theorem removeFiles (s : Session) (paths : List Nat) : TableWork s (s.removeFiles paths) := by
  refine ⟨rfl, rfl, rfl, rfl, rfl, rfl, paths.map Effect.removeTable, rfl, ?_⟩
  intro e he
  obtain ⟨p, -, rfl⟩ := mem_map.mp he
  rfl

theorem mergeRun (s : Session) (withL0 : Bool) (level width : Nat) (deepest : Bool)
    (expireBefore : Option Nat) (keepAfter : Nat) :
    TableWork s (s.mergeRun withL0 level width deepest expireBefore keepAfter).1 :=
  ⟨rfl, rfl, rfl, rfl, rfl, rfl, [.writeTable _], rfl, by simp [Effect.onTables]⟩

theorem cascade (expireBefore : Option Nat) (keepAfter fuel level : Nat) (s : Session) :
    TableWork s (Session.cascade expireBefore keepAfter fuel level s).1 := by
  induction fuel generalizing level s with
  | zero => exact refl s
  | succ fuel ih =>
    rw [Session.cascade]
    split
    · exact refl s
    · split
      · exact refl s
      · exact (mergeRun s ..).trans (ih _ _)

theorem maybeCompact (s : Session) (now : UInt64) : TableWork s (s.maybeCompact now) := by
  unfold Session.maybeCompact
  split
  · exact refl s
  · dsimp only
    exact (((mergeRun s ..).trans (cascade ..)).trans (emit _ rfl)).trans (removeFiles ..)

theorem installCompact (s : Session) (job : CompactJob) (run : SsTable) :
    TableWork s (s.installCompact job run) := by
  unfold Session.installCompact
  split
  · refine TableWork.trans (TableWork.trans ?_ (emit _ rfl)) (removeFiles ..)
    exact engine s rfl rfl rfl rfl rfl
  · exact removeFiles s _

private theorem gates_modify (frozen : List FrozenMem) (i : Nat) :
    gates (frozen.modify i (fun f => { f with building := false })) = gates frozen := by
  induction frozen generalizing i with
  | nil => simp [gates]
  | cons f frozen ih =>
    cases i with
    | zero => rfl
    | succ i => simpa [gates, modify_succ_cons] using ih i

theorem abortFlush (s : Session) (job : FlushJob) : TableWork s (s.abortFlush job) := by
  refine TableWork.trans ?_ (removeFiles ..)
  exact engine s rfl rfl rfl (gates_modify ..) rfl

theorem getVersioned (s : Session) (key : Bytes) :
    TableWork s (s.modify (fun e => (e.getVersioned key).2)) := by
  obtain ⟨c, hc⟩ := s.engine.engine_getVersioned
  rw [Session.modify, hc]
  exact engine s rfl rfl rfl rfl rfl

theorem takeCompactJob (s : Session) (now : UInt64) (h : s.engine.takeCompactJob now = some (job, e)) :
    TableWork s { s with engine := e } := by
  rw [(takeCompactJob_spec h).1]
  exact engine s rfl rfl rfl rfl rfl

theorem takeFlushJob (s : Session) (h : s.engine.takeFlushJob = some (job, e)) :
    TableWork s { s with engine := e } := by
  unfold Engine.takeFlushJob at h
  split at h
  · cases h
  · split at h
    · cases h
    case h_2 f rest hfrozen =>
      split at h
      · cases h
      · cases h
        exact engine s rfl rfl rfl (by rw [hfrozen]; rfl) rfl

end TableWork

theorem disk_freeze {s : Session} : s.freeze.disk =
      ((s.disk.apply .syncWal).apply (.renameWal s.engine.nextWalSeq)).apply .createWal := by
  simp only [freeze, rotate, disk_modify, disk_emit, engine_modify]

theorem freeze_guarded (h : Guarded mark d s) (hpersist : s.engine.opts.ephemeral = false)
    (hclear : s.disk.Below mark s.engine.nextWalSeq) : Guarded mark d s.freeze := by
  have hc := h.covered
  obtain ⟨f, hf⟩ := hc.exists_wal hpersist
  have hrename : ((s.disk.apply .syncWal).apply (.renameWal s.engine.nextWalSeq)).wal = none ∧
      ((s.disk.apply .syncWal).apply (.renameWal s.engine.nextWalSeq)).segments =
        s.disk.segments.insert s.engine.nextWalSeq f.records := by
    simp [apply, hf]
  have hdisk : s.freeze.disk.wal = some ⟨[], 0⟩ ∧
      s.freeze.disk.segments = s.disk.segments.insert s.engine.nextWalSeq f.records := by
    rw [disk_freeze]
    exact ⟨rfl, hrename.2⟩
  refine ⟨?_, ?_, h.mark⟩
  · refine Gated.emit (Gated.emit (Gated.emit h.gated spares_sync) ?_) ?_
    · rw [disk_emit]
      exact spares_rename hclear
    · rw [disk_emit, disk_emit]
      refine spares_create ?_
      rw [activeRecords]
      intro r hr
      rw [hrename.1] at hr
      simp at hr
  · rw [engine_freeze]
    refine ⟨?_, ?_, ?_, ?_⟩
    · simp [activeRecords, hdisk.1]
    · intro g hg records hget r hr
      rw [hdisk.2, OrdMap.get?_insert] at hget
      obtain hg | hg := mem_append.mp hg
      · rw [if_neg (hc.numbered g hg).ne] at hget
        exact hc.frozen g hg records hget r hr
      · obtain rfl := mem_singleton.mp hg
        rw [if_pos rfl] at hget
        cases hget
        exact hc.active r (by simpa [activeRecords, hf] using hr)
    · intro g hg
      obtain hg | hg := mem_append.mp hg
      · exact Nat.lt_succ_of_lt (hc.numbered g hg)
      · obtain rfl := mem_singleton.mp hg
        exact Nat.lt_succ_self _
    · rw [hdisk.1]
      simp [hpersist]

def Ready (mark : Hlc) (s : Session) : Prop :=
  ∀ f ∈ s.engine.frozen, InstallSafe mark s.disk f.maxHlc f.walSeq

theorem TableWork.ready (h : TableWork s s') (hr : Ready mark s) : Ready mark s' := by
  intro f' hf'
  obtain ⟨f, hf, hseq, htop⟩ := h.mem_frozen hf'
  rw [← hseq, ← htop]
  exact (hr f hf).mono (fun n _ => .inl (by rw [h.disk.2]))

structure Drops (s s' : Session) : Prop where
  opts : s'.engine.opts = s.engine.opts
  mark : s'.engine.maintWatermark = s.engine.maintWatermark
  mem : s'.engine.mem = s.engine.mem
  frozen : s'.engine.frozen.Sublist s.engine.frozen
  nextWalSeq : s'.engine.nextWalSeq = s.engine.nextWalSeq
  wal : s'.disk.wal = s.disk.wal
  segments : ∀ n, s'.disk.segments.get? n = s.disk.segments.get? n ∨ s'.disk.segments.get? n = none

theorem Drops.ready (h : Drops s s') (hr : Ready mark s) : Ready mark s' :=
  fun f hf => (hr f (h.frozen.subset hf)).mono (fun n _ => h.segments n)

private theorem removeSegments_drops (d : Disk) (ns : List Nat) :
    (d.applyAll (ns.map Effect.removeSegment)).wal = d.wal ∧
    ∀ n, (d.applyAll (ns.map Effect.removeSegment)).segments.get? n = d.segments.get? n ∨
      (d.applyAll (ns.map Effect.removeSegment)).segments.get? n = none := by
  induction ns generalizing d with
  | nil => exact ⟨rfl, fun _ => .inl rfl⟩
  | cons m ns ih =>
    obtain ⟨hwal, hseg⟩ := ih (d.apply (.removeSegment m))
    refine ⟨hwal, ?_⟩
    intro n
    obtain hn | hn := hseg n
    · simp only [apply, OrdMap.get?_erase] at hn
      split_ifs at hn
      · exact .inr hn
      · exact .inl hn
    · exact .inr hn

theorem Drops.covered (h : Drops s s') (hc : LogCovered s.engine s.disk) : LogCovered s'.engine s'.disk :=
  hc.mono h.opts h.mem (fun f hf => ⟨f, h.frozen.subset hf, rfl, rfl⟩) h.nextWalSeq h.wal h.segments

theorem dropFlushed_guarded {f : FrozenMem} (h : Guarded mark d s)
    (hown : gateOpen mark f.maxHlc = true → s.disk.Below mark f.walSeq)
    (hsafe : InstallSafe mark s.disk f.maxHlc f.walSeq) :
    Guarded mark d (s.dropFlushed f) ∧ Drops s (s.dropFlushed f) := by
  obtain ⟨hg, hc, rfl⟩ := h
  unfold dropFlushed
  split_ifs with hopen
  · obtain ⟨hwal, hseg⟩ := removeSegments_drops s.disk (s.disk.listSegments.filter (fun n => n ≤ f.walSeq))
    have hdrops : Drops s (s.dropSegmentsThrough f.walSeq) := by
      refine ⟨rfl, rfl, rfl, .refl _, rfl, ?_, ?_⟩
      · rw [dropSegmentsThrough, disk_emitAll]
        exact hwal
      · rw [dropSegmentsThrough, disk_emitAll]
        exact hseg
    refine ⟨⟨hg.emitAll (spares_removeSegments ?_), hdrops.covered hc, rfl⟩, hdrops⟩
    intro n hn
    have hle : n ≤ f.walSeq := by simpa using (mem_filter.mp hn).2
    obtain hlt | rfl := hle.lt_or_eq
    · exact hsafe hopen n hlt
    · exact hown hopen
  · exact ⟨⟨hg, hc, rfl⟩, rfl, rfl, rfl, .refl _, rfl, rfl, fun _ => .inl rfl⟩

-- The gate looks at the installed memtable alone, and older segments go with its own.
theorem installFlush_guarded {job : FlushJob} (h : Guarded mark d s)
    (hsafe : ∀ f ∈ s.engine.frozen, f.walSeq = job.walSeq → InstallSafe mark s.disk f.maxHlc f.walSeq) :
    Guarded mark d (s.installFlush job sst) ∧ (Ready mark s → Ready mark (s.installFlush job sst)) := by
  have hwork : TableWork s ((s.modify (fun e => { e with l0 := sst :: e.l0 })).persistManifest) :=
    ⟨rfl, rfl, rfl, rfl, rfl, rfl, [.writeManifest _], rfl, by simp [Effect.onTables]⟩
  unfold installFlush
  dsimp only
  generalize (s.modify (fun e => { e with l0 := sst :: e.l0 })).persistManifest = s₁ at hwork
  have h₁ := hwork.guarded h
  split
  · exact ⟨h₁, hwork.ready⟩
  case h_2 f hfind =>
    have hmem : f ∈ s₁.engine.frozen := mem_of_find?_eq_some hfind
    have hseq : f.walSeq = job.walSeq := by simpa using List.find?_some hfind
    have hsafe₁ : InstallSafe mark s₁.disk f.maxHlc f.walSeq := by
      obtain ⟨f₀, hf₀, hseq₀, htop₀⟩ := hwork.mem_frozen hmem
      rw [← hseq₀, ← htop₀]
      refine (hsafe f₀ hf₀ (hseq₀.trans hseq)).mono ?_
      exact fun n _ => .inl (by rw [hwork.disk.2])
    have hleaves : Drops s₁ (s₁.modify (fun e =>
        { e with frozen := e.frozen.eraseP (fun f => f.walSeq = job.walSeq) })) :=
      ⟨rfl, rfl, rfl, eraseP_sublist, rfl, rfl, fun _ => .inl rfl⟩
    obtain ⟨hguarded, hdrops⟩ := dropFlushed_guarded (s := s₁.modify (fun e =>
      { e with frozen := e.frozen.eraseP (fun f => f.walSeq = job.walSeq) }))
      ⟨h₁.gated, hleaves.covered h₁.covered, h₁.mark⟩ (fun hopen => h₁.covered.below hmem hopen) hsafe₁
    exact ⟨hguarded, fun hr => hdrops.ready (hleaves.ready (hwork.ready hr))⟩

theorem drainFrozen_guarded (h : Guarded mark d s) (hr : Ready mark s) :
    Guarded mark d (drainFrozen fuel s) := by
  induction fuel generalizing s with
  | zero => exact h
  | succ fuel ih =>
    rw [drainFrozen]
    split
    · exact h
    case h_2 job e htake =>
      have hwork : TableWork s (({ s with engine := e } : Session).writeTable (buildFlush job)) :=
        (TableWork.takeFlushJob s htake).trans (TableWork.emit _ rfl)
      have hr₁ := hwork.ready hr
      obtain ⟨h₂, hr₂⟩ := installFlush_guarded (hwork.guarded h)
        (fun f hf _ => hr₁ f hf)
      exact ih h₂ (hr₂ hr₁)

def FlushSafe (mark : Hlc) (s : Session) : Prop :=
  (s.engine.mem.isEmpty = false →
    s.disk.Below mark s.engine.nextWalSeq ∧
    InstallSafe mark s.disk s.engine.mem.maxHlc s.engine.nextWalSeq) ∧
  Ready mark s

theorem FlushSafe.freeze (h : FlushSafe mark s) (hc : LogCovered s.engine s.disk)
    (hpersist : s.engine.opts.ephemeral = false) (hmem : s.engine.mem.isEmpty = false) :
    Ready mark s.freeze := by
  obtain ⟨f, hf⟩ := hc.exists_wal hpersist
  have hseg : ∀ n < s.engine.nextWalSeq, s.freeze.disk.segments.get? n = s.disk.segments.get? n := by
    intro n hn
    rw [disk_freeze]
    simp [apply, hf, hn.ne]
  intro g hg
  obtain hg | hg := mem_append.mp hg
  · exact (h.2 g hg).mono (fun n hn => .inl (hseg n (hn.trans (hc.numbered g hg))))
  · obtain rfl := mem_singleton.mp hg
    exact (h.1 hmem).2.mono (fun n hn => .inl (hseg n hn))

theorem flush_guarded (h : Guarded mark d s) (hsafe : s.engine.opts.ephemeral = false → FlushSafe mark s) :
    Guarded mark d (s.flush now) := by
  unfold flush
  split_ifs with heph hmem
  · exact h
  · have hready := (hsafe (by simpa using heph)).2
    exact (TableWork.maybeCompact _ now).guarded (drainFrozen_guarded h hready)
  · have hpersist : s.engine.opts.ephemeral = false := by simpa using heph
    have hsome : s.engine.mem.isEmpty = false := by simpa using hmem
    have hsealed := freeze_guarded h hpersist ((hsafe hpersist).1 hsome).1
    have hready := (hsafe hpersist).freeze h.covered hpersist hsome
    exact (TableWork.maybeCompact _ now).guarded (drainFrozen_guarded hsealed hready)

def SealSafe (mark : Hlc) (s : Session) : Prop :=
  s.engine.opts.flushThresholdBytes ≤ s.engine.mem.approxBytes →
    s.disk.Below mark s.engine.nextWalSeq ∧ (4 ≤ s.engine.frozen.length → FlushSafe mark s)

theorem SealSafe.of_eq (h : SealSafe mark s) (hseg : s'.disk.segments = s.disk.segments)
    (hopts : s'.engine.opts = s.engine.opts) (hmem : s'.engine.mem = s.engine.mem)
    (hfrozen : s'.engine.frozen = s.engine.frozen)
    (hseq : s'.engine.nextWalSeq = s.engine.nextWalSeq) : SealSafe mark s' := by
  unfold SealSafe FlushSafe Ready InstallSafe Below at *
  rw [hopts, hmem, hfrozen, hseq, hseg]
  exact h

theorem maybeFlush_guarded (h : Guarded mark d s) (hsafe : SealSafe mark s) :
    Guarded mark d (s.maybeFlush now) := by
  unfold maybeFlush
  split_ifs with hsmall hfour
  · exact h
  · have hfull : s.engine.opts.flushThresholdBytes ≤ s.engine.mem.approxBytes := by
      simp only [Bool.or_eq_true, decide_eq_true_eq, not_or, not_lt] at hsmall
      exact hsmall.1
    exact flush_guarded h (fun _ => (hsafe hfull).2 hfour)
  · simp only [Bool.or_eq_true, decide_eq_true_eq, not_or, not_lt] at hsmall
    exact freeze_guarded h (by simpa using hsmall.2) (hsafe hsmall.1).1

theorem syncThrough_guarded {commit : WalCommit} (h : Guarded mark d s) :
    Guarded mark d (s.syncThrough commit) := by
  have hc := h.covered
  unfold syncThrough
  dsimp only
  split_ifs
  · exact h
  · refine ⟨Gated.emit h.gated spares_sync, ?_, h.mark⟩
    rw [disk_modify, disk_emit]
    refine ⟨?_, hc.frozen, hc.numbered, ?_⟩
    · intro r hr
      refine hc.active r ?_
      cases hwal : s.disk.wal with
      | none => simp [activeRecords, apply, hwal] at hr
      | some f => simpa [activeRecords, apply, hwal] using hr
    · simpa [apply] using hc.logs

theorem segments_logged (s : Session) : (s.logged stamping wall key value).disk.segments = s.disk.segments := by
  rw [disk_logged]
  split_ifs <;> rfl

section Write

variable (stamping : Stamping) (sync : Bool) (wall now : UInt64) (key : Bytes) (value : VersionValue)

theorem logged_guarded (h : Guarded mark d s) : Guarded mark d (s.logged stamping wall key value) := by
  have hc := h.covered
  refine ⟨?_, ?_, by rw [engine_logged, ← h.mark]⟩
  · unfold logged buffered appendOp
    split_ifs
    · exact h.gated
    · exact Gated.emit h.gated spares_append
  · rw [engine_logged]
    refine ⟨?_, ?_, hc.numbered, ?_⟩
    · intro r hr
      have hcases : r ∈ s.disk.activeRecords ∨ r = ⟨stamp s.engine.clock wall stamping, key, value⟩ := by
        rw [disk_logged] at hr
        split_ifs at hr
        · exact .inl hr
        · cases hwal : s.disk.wal with
          | none => simp [activeRecords, apply, hwal] at hr
          | some file => simpa [activeRecords, apply, hwal] using hr
      obtain hr | rfl := hcases
      · exact (hc.active r hr).insert ..
      · exact coveredBy_insert ..
    · rw [segments_logged]
      exact hc.frozen
    · rw [disk_logged]
      split_ifs
      · exact hc.logs
      · simpa [apply] using hc.logs

theorem write_guarded (h : Guarded mark d s)
    (hsafe : SealSafe mark (s.modify (fun e =>
      { e with mem := e.mem.insert key (stamp e.clock wall stamping) value }))) :
    Guarded mark d (s.write stamping sync wall now key value).1 := by
  refine write_rule ?_ (fun t commit h => syncThrough_guarded h)
  have hengine := s.engine_logged stamping wall key value
  have hseal := hsafe.of_eq s.segments_logged (by rw [hengine]; rfl)
    (by rw [hengine]; rfl) (by rw [hengine]; rfl) (by rw [hengine]; rfl)
  exact maybeFlush_guarded (logged_guarded stamping wall key value h) hseal

end Write

theorem retainEffects_spares {e : Engine} {keep : Bytes → Bool}
    (hactive : ∀ r ∈ d.activeRecords, r.hlc ≤ mark) (hbelow : ∀ n < e.nextWalSeq + 1, d.Below mark n) :
    Along apply (Spares mark) d (e.retainEffects keep d) ∧ (d.applyAll (e.retainEffects keep d)).wal =
      if e.opts.ephemeral then d.wal else some ⟨[], 0⟩ := by
  have htable : ∀ x ∈ (e.survivorTable keep).toList.map Effect.writeTable, x.onTables = true := by
    intro x hx
    obtain ⟨t, -, rfl⟩ := mem_map.mp hx
    rfl
  have hlast : ∀ x ∈ [Effect.writeManifest (e.afterRetain keep).manifestLines] ++
      (e.sstablesNewestFirst.map SsTable.path).map Effect.removeTable, x.onTables = true := by
    intro x hx
    obtain hx | hx := mem_append.mp hx
    · obtain rfl := mem_singleton.mp hx
      rfl
    · obtain ⟨n, -, rfl⟩ := mem_map.mp hx
      rfl
  unfold retainEffects
  rw [append_assoc _ [_] _]
  generalize (e.survivorTable keep).toList.map Effect.writeTable = tables at htable
  generalize [Effect.writeManifest _] ++ _ = last at hlast
  obtain ⟨hwal₁, hseg₁⟩ := applyAll_onTables (d := d) htable
  have hcreate : Along apply (Spares mark) (d.applyAll tables) (if e.opts.ephemeral then [] else [.createWal]) ∧
      (d.applyAll (tables ++ if e.opts.ephemeral then [] else [.createWal])).wal =
        (if e.opts.ephemeral then d.wal else some ⟨[], 0⟩) ∧
      (d.applyAll (tables ++ if e.opts.ephemeral then [] else [.createWal])).segments = d.segments := by
    rw [applyAll_append]
    split_ifs
    · exact ⟨trivial, hwal₁, hseg₁⟩
    · refine ⟨⟨spares_create ?_, trivial⟩, rfl, hseg₁⟩
      rw [activeRecords, hwal₁]
      exact hactive
  obtain ⟨hspares, hwal₂, hseg₂⟩ := hcreate
  have hfirst := along_append.mpr ⟨spares_onTables htable, hspares⟩
  generalize tables ++ _ = first at hfirst hwal₂ hseg₂
  have hdrop : ∀ n ∈ e.droppedSegments d, (d.applyAll first).Below mark n := by
    intro n hn
    have hle : n ≤ e.nextWalSeq := by simpa using (mem_filter.mp hn).2
    exact (hbelow n (by omega)).of_segments (.inl (by rw [hseg₂]))
  constructor
  · exact along_append.mpr ⟨along_append.mpr ⟨hfirst, spares_removeSegments hdrop⟩, spares_onTables hlast⟩
  · rw [applyAll_append, (applyAll_onTables hlast).1, applyAll_append, (removeSegments_drops _ _).1, hwal₂]

-- A retain empties the log whatever the gate says.
theorem retain_guarded (h : Guarded mark d s)
    (hsafe : (s.engine.rejected keep).isEmpty = true ∨
      ((∀ r ∈ s.disk.activeRecords, r.hlc ≤ mark) ∧ ∀ n < s.engine.nextWalSeq + 1, s.disk.Below mark n)) :
    Guarded mark d (s.retain keep) := by
  by_cases hdrop : (s.engine.rejected keep).isEmpty = true
  · rw [retain_eq_self keep hdrop]
    exact h
  · obtain hnone | ⟨hactive, hbelow⟩ := hsafe
    · exact absurd hnone hdrop
    obtain ⟨hspares, hwal⟩ := retainEffects_spares hactive hbelow
    rw [retain_eq keep (by simpa using hdrop)]
    refine ⟨⟨h.gated.1, along_append.mpr ⟨h.gated.2, hspares⟩⟩, ?_, h.mark⟩
    have hdisk : ({ s with
        engine := s.engine.afterRetain keep
        effects := s.effects ++ s.engine.retainEffects keep s.disk } : Session).disk =
        s.disk.applyAll (s.engine.retainEffects keep s.disk) := applyAll_append ..
    rw [hdisk]
    refine ⟨?_, by simp [afterRetain], by simp [afterRetain], ?_⟩
    · intro r hr
      rw [activeRecords, hwal] at hr
      have hlogs := h.covered.logs
      split_ifs at hr with heph
      · rw [heph, Bool.not_true, isSome_eq_false_iff, isNone_iff_eq_none] at hlogs
        simp [hlogs] at hr
      · simp at hr
    · rw [hwal]
      split_ifs with heph
      · exact h.covered.logs
      · simp [afterRetain, heph]

end Session

def GateSafe (p : Process) : Call → Prop
  | .op .freeze => p.disk.Below p.engine.maintWatermark p.engine.nextWalSeq
  | .op (.flush _) => Session.FlushSafe p.engine.maintWatermark p.session
  | .op (.write stamping _ wall _ key value) =>
    Session.SealSafe p.engine.maintWatermark (p.session.modify (fun e =>
      { e with mem := e.mem.insert key (Session.stamp e.clock wall stamping) value }))
  | .op (.installFlush i) =>
    ∀ job ∈ (p.flushJobs[i]?).map Prod.fst, ∀ f ∈ p.engine.frozen, f.walSeq = job.walSeq →
      InstallSafe p.engine.maintWatermark p.disk f.maxHlc f.walSeq
  | .op _ => True
  | .retain keep =>
    (p.engine.rejected keep).isEmpty = true ∨
      ((∀ r ∈ p.disk.activeRecords, r.hlc ≤ p.engine.maintWatermark) ∧
        ∀ n < p.engine.nextWalSeq + 1, p.disk.Below p.engine.maintWatermark n)

instance (p : Process) (c : Call) : Decidable (GateSafe p c) := by
  unfold GateSafe Session.FlushSafe Session.SealSafe Session.FlushSafe Session.Ready
  split <;> infer_instance

def KeepsGate (p : Process) (c : Call) : Prop :=
  Along Disk.apply (Spares p.engine.maintWatermark) p.disk (p.execCall c).2

namespace Process

variable {p : Process}

inductive Acts (p : Process) : Call → Session → Prop
  | write (stamping : Session.Stamping) (sync : Bool) (wall now : UInt64) (key : Bytes) (value : VersionValue) :
      Acts p (.op (.write stamping sync wall now key value))
        (p.session.write stamping sync wall now key value).1
  | sync (i : Nat) (commit : WalCommit) : Acts p (.op (.sync i)) (p.session.syncThrough commit)
  | freeze (persist : p.engine.opts.ephemeral = false) : Acts p (.op .freeze) p.session.freeze
  | flush (now : UInt64) : Acts p (.op (.flush now)) (p.session.flush now)
  | installFlush (i : Nat) (job : FlushJob) (sst : SsTable) (found : p.flushJobs[i]? = some (job, some sst)) :
      Acts p (.op (.installFlush i)) (p.session.installFlush job sst)
  | mark (hlc : Hlc) :
      Acts p (.op (.setMaintenanceWatermark hlc)) (p.session.modify (·.setMaintenanceWatermark hlc))
  | retain (keep : Bytes → Bool) : Acts p (.retain keep) (p.session.retain keep)
  | work (c : Call) (s : Session) (work : Session.TableWork p.session s) : Acts p c s

theorem acts (p : Process) (c : Call) :
    ∃ s, Acts p c s ∧ (p.call c).engine = s.engine ∧ (p.call c).disk = s.disk ∧ (p.execCall c).2 = s.effects := by
  have hidle : ∃ s, Acts p c s ∧ p.engine = s.engine ∧ p.disk = s.disk ∧ [] = s.effects :=
    ⟨p.session, .work c _ (.refl _), rfl, rfl, rfl⟩
  unfold call
  cases c with
  | retain keep => exact ⟨_, .retain keep, rfl, rfl, rfl⟩
  | op op =>
    simp only [execCall]
    cases op with
    | write stamping sync wall now key value =>
      exact ⟨_, .write stamping sync wall now key value, rfl, rfl, rfl⟩
    | sync i =>
      simp only [exec]
      split
      · exact hidle
      · exact ⟨_, .sync i _, rfl, rfl, rfl⟩
    | read key => exact ⟨_, .work _ _ (.getVersioned p.session key), rfl, rfl, rfl⟩
    | freeze =>
      simp only [exec]
      split_ifs with heph
      · exact hidle
      · exact ⟨_, .freeze (Bool.eq_false_iff.mpr heph), rfl, rfl, rfl⟩
    | flush now => exact ⟨_, .flush now, rfl, rfl, rfl⟩
    | takeFlush =>
      simp only [exec]
      split
      · exact hidle
      case h_2 job e htake => exact ⟨_, .work _ _ (.takeFlushJob p.session htake), rfl, rfl, rfl⟩
    | buildFlush i =>
      simp only [exec]
      split
      · exact ⟨_, .work _ _ (.emit p.session rfl), rfl, rfl, rfl⟩
      · exact hidle
    | installFlush i =>
      simp only [exec]
      split
      case h_1 job sst hjob => exact ⟨_, .installFlush i job sst hjob, rfl, rfl, rfl⟩
      · exact hidle
    | abortFlush i =>
      simp only [exec]
      split
      · exact ⟨_, .work _ _ (.abortFlush p.session _), rfl, rfl, rfl⟩
      · exact hidle
    | takeCompact now =>
      simp only [exec]
      split
      · exact hidle
      case h_2 job e htake => exact ⟨_, .work _ _ (.takeCompactJob p.session now htake), rfl, rfl, rfl⟩
    | buildCompact i =>
      simp only [exec]
      split
      · split
        · exact hidle
        · exact ⟨_, .work _ _ (.emit p.session rfl), rfl, rfl, rfl⟩
      · exact hidle
    | installCompact i =>
      simp only [exec]
      split
      · exact ⟨_, .work _ _ (.installCompact p.session _ _), rfl, rfl, rfl⟩
      · exact hidle
    | setMaintenanceWatermark hlc => exact ⟨_, .mark hlc, rfl, rfl, rfl⟩
    | setTombstoneRetentionMs ms =>
      exact ⟨p.session.modify (·.setTombstoneRetentionMs ms),
        .work _ _ (.engine p.session rfl rfl rfl rfl rfl), rfl, rfl, rfl⟩
    | clearReadCache =>
      exact ⟨p.session.modify clearReadCache,
        .work _ _ (.engine p.session rfl rfl rfl rfl rfl), rfl, rfl, rfl⟩

theorem Acts.gated {s : Session} (h : Acts p c s) (hc : LogCovered p.engine p.disk) (hsafe : GateSafe p c) :
    Session.Gated p.engine.maintWatermark p.disk s ∧ LogCovered s.engine s.disk := by
  have hstart : Session.Guarded p.engine.maintWatermark p.disk p.session := ⟨⟨rfl, trivial⟩, hc, rfl⟩
  have hboth : ∀ {s}, Session.Guarded p.engine.maintWatermark p.disk s →
      Session.Gated p.engine.maintWatermark p.disk s ∧ LogCovered s.engine s.disk := fun h => ⟨h.gated, h.covered⟩
  cases h with
  | write stamping sync wall now key value =>
    exact hboth (Session.write_guarded stamping sync wall now key value hstart hsafe)
  | sync i commit => exact hboth (Session.syncThrough_guarded hstart)
  | freeze persist => exact hboth (Session.freeze_guarded hstart persist hsafe)
  | flush now => exact hboth (Session.flush_guarded hstart (fun _ => hsafe))
  | installFlush i job sst found =>
    exact hboth (Session.installFlush_guarded hstart (hsafe job (by simp [found]))).1
  | mark hlc =>
    refine ⟨hstart.gated, ?_⟩
    simp only [Session.modify, setMaintenanceWatermark]
    split_ifs
    · exact { hc with }
    · exact hc
  | retain keep => exact hboth (Session.retain_guarded hstart hsafe)
  | work c s work => exact hboth (work.guarded hstart)

theorem call_gated (hc : LogCovered p.engine p.disk) (hsafe : GateSafe p c) :
    LogCovered (p.call c).engine (p.call c).disk ∧ KeepsGate p c := by
  obtain ⟨s, hacts, hengine, hdisk, heffects⟩ := p.acts c
  obtain ⟨⟨hstart, hgated⟩, hcovered⟩ := hacts.gated hc hsafe
  unfold KeepsGate
  rw [hengine, hdisk, heffects, ← hstart]
  exact ⟨hcovered, hgated⟩

theorem open_covered {opts : EngineOptions} {disk : Disk} {s : Session}
    (h : openWithOptions opts disk wall = some s) : LogCovered s.engine s.disk := by
  obtain ⟨⟨l0, levels, next⟩, -, rfl⟩ := map_eq_some_iff.mp h
  refine ⟨?_, by simp, by simp, ?_⟩
  · intro r hr
    cases heph : opts.ephemeral with
    | true => simp [Session.disk, applyAll, apply, activeRecords, heph] at hr
    | false =>
      have hmem : r ∈ disk.replayRecords := by
        refine mem_append_right _ ?_
        cases hwal : disk.wal with
        | none => simp [Session.disk, applyAll, apply, activeRecords, heph, hwal] at hr
        | some f =>
          simpa [Session.disk, applyAll, apply, activeRecords, heph, hwal] using hr
      exact coveredBy_replay hmem
  · cases opts.ephemeral <;> simp [Session.disk, applyAll, apply]

end Process

-- No call of a run takes a record above the watermark out of the log.
theorem maintenance_gate {opts : EngineOptions} {disk : Disk} {wall : UInt64} {s : Session}
    (hopen : openWithOptions opts disk wall = some s) (calls : List Call)
    (hsafe : Along Process.call GateSafe (Process.ofSession s) calls) :
    Along Process.call KeepsGate (Process.ofSession s) calls :=
  Along.imp (fun p c hc (hgood : GateSafe p c) =>
    call_gated hc hgood) hsafe (open_covered hopen)

def gatedLog : EngineOptions := ⟨1000, 4, 8, 0, 0, false⟩

theorem maintenance_gate_kept : let calls : List Call :=
      [.op (.write (.given ⟨100, 0⟩) true 0 0 [1] (.put [7])), .op (.setMaintenanceWatermark ⟨50, 0⟩),
        .op (.flush 0), .op (.write (.given ⟨60, 0⟩) true 0 0 [2] (.put [8])), .op (.flush 0)]
    Along call GateSafe (fresh gatedLog 0) calls ∧
    Along call KeepsGate (fresh gatedLog 0) calls ∧
    ((fresh gatedLog 0).runCalls calls).disk.listSegments = [1, 2] := by
  refine ⟨by decide, ?_, by decide⟩
  exact maintenance_gate (some_get _).symm _ (by decide)

-- The second memtable passes the gate, and the first one's segment goes with its own.
theorem gate_drops_older_segment : let calls : List Call :=
      [.op (.write (.given ⟨100, 0⟩) true 0 0 [1] (.put [7])), .op (.setMaintenanceWatermark ⟨50, 0⟩),
        .op (.flush 0), .op (.write (.given ⟨40, 0⟩) true 0 0 [2] (.put [8]))]
    let p := (fresh gatedLog 0).runCalls calls
    let r : WalRecord := ⟨⟨100, 0⟩, [1], .put [7]⟩
    p.engine.maintWatermark = ⟨50, 0⟩ ∧ r ∈ p.disk.replayRecords ∧ p.engine.maintWatermark < r.hlc ∧
    (p.call (.op (.flush 0))).disk.replayRecords = [] := by
  decide

end Skaidb.Storage
