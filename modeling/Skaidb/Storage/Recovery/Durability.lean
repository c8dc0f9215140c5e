import Skaidb.Storage.Engine.Transparency
import Skaidb.Storage.Recovery.Reopen

namespace Skaidb.Storage

open Skaidb.Base List Process Skaidb.Storage.System History Session

theorem History.applyAll_commits (h : History) (effects : List Effect) :
    (h.applyAll effects).commits = h.commits ∧ (h.applyAll effects).synced = h.synced := by
  induction effects generalizing h with
  | nil => exact ⟨rfl, rfl⟩
  | cons e effects ih =>
    obtain ⟨hc, hs⟩ := ih (h.apply e)
    have hstep : (h.apply e).commits = h.commits ∧ (h.apply e).synced = h.synced := by
      cases e <;> exact ⟨rfl, rfl⟩
    exact ⟨hc.trans hstep.1, hs.trans hstep.2⟩

variable {h : History}

theorem History.durable_applyAll (hle : h.durable ≤ h.records.length) (effects : List Effect) :
    h.durable ≤ (h.applyAll effects).durable := by
  induction effects generalizing h with
  | nil => exact le_rfl
  | cons e effects ih =>
    have hstep : h.durable ≤ (h.apply e).durable ∧ (h.apply e).durable ≤ (h.apply e).records.length := by
      cases e with
      | appendWal r =>
        simp only [apply, length_append]
        omega
      | syncWal => exact ⟨hle, le_rfl⟩
      | _ => exact ⟨le_rfl, hle⟩
    exact hstep.1.trans (ih hstep.2)

variable {s : Session}

theorem Move.start {s' : Session} (h : Move s s') : s'.start = s.start := by
  cases h <;> rfl

theorem Moves.start {s' : Session} (h : Moves s s') : s'.start = s.start := by
  induction h with
  | refl => rfl
  | tail _ hstep ih => exact hstep.start.trans ih

theorem Recoverable.relabel {h' : History} (hr : Recoverable h d l0 levels gone inTables)
    (hrec : h'.records = h.records) (hdur : h'.durable = h.durable) :
    Recoverable h' d l0 levels gone inTables := by
  have hwrites : h'.writes = h.writes := by rw [History.writes, hrec]; rfl
  exact ⟨by rw [hrec]; exact hr.log, by rw [hrec]; exact hr.gone_le, hr.gone_flushed, hr.flushed_le,
    by rw [hdur]; exact hr.durable_le, hr.synced_le, hr.positive, hr.manifest, hr.files, hr.nodup,
    by rw [hwrites]; exact hr.tables⟩

theorem Kept.restart {h' : History} (hk : Kept h cs s) (hrec : h'.records = (h.applyAll s.effects).records)
    (hdur : h'.durable = (h.applyAll s.effects).durable) : Kept h' cs ⟨s.engine, s.disk, []⟩ := by
  obtain ⟨l0, levels, gone, inTables, flushed, frozen, left, ht⟩ := hk.tracks
  have hr := ht.recoverable.relabel hrec hdur
  refine ⟨?_, ⟨l0, levels, gone, inTables, flushed, frozen, left, ?_⟩, ?_⟩
  · intro k
    rw [take_nil]
    exact ⟨l0, levels, gone, inTables, hr⟩
  · exact { ht with recoverable := hr }
  · intro x hx
    have hc := hk.commits x hx
    unfold CommitAt at hc ⊢
    rw [show h'.applyAll ([] : List Effect) = h' from rfl, hrec, hdur]
    exact hc

theorem Kept.syncThrough (hk : Kept h cs s) (hc : (c, i) ∈ cs) :
    i < (h.applyAll (s.syncThrough c).effects).durable := by
  obtain ⟨l0, levels, gone, inTables, flushed, frozen, left, ht⟩ := hk.tracks
  have hat : CommitAt (h.applyAll s.effects) s.engine.wal c i := hk.commits (c, i) hc
  have hi := hat.lt_length ht.recoverable.durable_le_length
  unfold Session.syncThrough
  dsimp only
  split_ifs with hskip
  · obtain ⟨-, hdur⟩ | ⟨hgen, -, -, hsync⟩ := hat
    · exact hdur
    · simp only [ht.persistent, hgen, Bool.false_or, decide_eq_true_eq, ne_eq, not_true_eq_false,
        decide_false] at hskip
      exact hsync hskip
  · rw [show h.applyAll ((s.emit .syncWal).modify _).effects = _ from applyAll_emit h]
    exact hi

theorem History.acknowledge_records (h : History) :
    (h.acknowledge before op).records = h.records ∧ (h.acknowledge before op).durable = h.durable := by
  cases op <;> exact ⟨rfl, rfl⟩

structure Running (p : Process) (h : History) : Prop where
  sound : p.Sound
  persisted : Persisted p.engine p.disk
  length : p.commits.length = h.commits.length
  kept : Kept h (p.commits.zip h.commits) p.session
  synced : ∀ i ∈ h.synced, i < h.durable

structure Returned (p : Process) (h : History) (op : Op) (s : Session) : Prop where
  effects : (p.exec op).2 = s.effects
  session : (p.step op).session = ⟨s.engine, s.disk, []⟩
  start : s.start = p.disk
  persisted : Persisted s.engine s.disk
  length : (p.step op).commits.length =
    ((h.applyAll s.effects).acknowledge h.records.length op).commits.length
  kept : Kept h ((p.step op).commits.zip
    ((h.applyAll s.effects).acknowledge h.records.length op).commits) s
  synced : ∀ i ∈ ((h.applyAll s.effects).acknowledge h.records.length op).synced,
    i < (h.applyAll s.effects).durable

variable {p : Process}

theorem Running.durable_le (hr : Running p h) :
    h.durable ≤ h.records.length := by
  obtain ⟨_, _, _, _, _, _, _, ht⟩ := hr.kept.tracks
  exact ht.recoverable.durable_le_length

theorem Running.still_synced (hr : Running p h) (effects : List Effect) (hi : i ∈ h.synced) :
    i < (h.applyAll effects).durable :=
  (hr.synced i hi).trans_le (durable_applyAll hr.durable_le effects)

private theorem returned_maintenance (hr : Running p h) {op : Op}
    (habove : SealsAbove p op) (hop : op.isWrite = false) : ∃ s, Returned p h op s := by
  obtain ⟨q, s, hexec, hcommits, hmoves, hpersisted⟩ := exec_moves hr.sound hr.persisted habove hop
  have hkept := Moves.kept hmoves hr.kept
  obtain ⟨hc, hs⟩ := h.applyAll_commits s.effects
  have hstep : p.step op = (q.commit s).1 := by rw [Process.step, hexec]
  have hcs : ((h.applyAll s.effects).acknowledge h.records.length op).commits = h.commits := by
    cases op with
    | write => cases hop
    | _ => exact hc
  have hpc : (p.step op).commits = p.commits := by rw [hstep]; exact hcommits
  refine ⟨s, by rw [hexec]; rfl, by rw [hstep]; rfl, Moves.start hmoves, hpersisted, ?_, ?_, ?_⟩
  · rw [hpc, hcs]
    exact hr.length
  · rw [hpc, hcs]
    exact hkept
  · by_cases hsync : ∃ j, op = .sync j
    · obtain ⟨j, rfl⟩ := hsync
      intro i hi
      simp only [acknowledge, hs, hc] at hi
      obtain hi | hi := mem_append.mp hi
      · exact hr.still_synced _ hi
      · -- The commit at `j` has just been synced.
        have hj : h.commits[j]? = some i := by simpa using hi
        have hlt : j < p.commits.length := by
          rw [hr.length]
          exact (List.getElem?_eq_some_iff.mp hj).1
        obtain ⟨c, hcj⟩ : ∃ c, p.commits[j]? = some c := ⟨_, getElem?_eq_getElem hlt⟩
        have hmem : (c, i) ∈ p.commits.zip h.commits := by
          rw [mem_iff_getElem?]
          exact ⟨j, getElem?_zip_eq_some.mpr ⟨hcj, hj⟩⟩
        have heff : s.effects = (p.session.syncThrough c).effects := by
          have h2 := congrArg Prod.snd hexec
          simp only [exec, hcj, commit] at h2
          exact h2.symm
        rw [heff]
        exact hr.kept.syncThrough hmem
    · have hsame : ((h.applyAll s.effects).acknowledge h.records.length op).synced = h.synced := by
        cases op with
        | write => cases hop
        | sync j => exact absurd ⟨j, rfl⟩ hsync
        | _ => exact hs
      intro i hi
      rw [hsame] at hi
      exact hr.still_synced _ hi

private theorem returned_write (hr : Running p h)
    (habove : SealsAbove p (.write stamping sync wall now key value)) :
    ∃ s, Returned p h (.write stamping sync wall now key value) s := by
  obtain ⟨_, _, _, _, _, _, _, ht⟩ := hr.kept.tracks
  obtain ⟨s₁, s₂, hnote, heff₁, hwal₁, hmoves, hwrite, hpersisted⟩ := write_moves
    (s := p.session) stamping sync wall now key value hr.sound hr.persisted ht.persistent (by
      intro hfull n hn
      exact habove (decide_eq_true hfull) n hn)
  generalize hrec : (⟨stamp p.session.engine.clock wall stamping, key, value⟩ : WalRecord) = r at hmoves
  generalize hcommit : (⟨p.session.engine.wal.generation, p.session.engine.wal.writeOffset + 1⟩ : WalCommit) = c
    at hwrite
  -- The record is logged: its commit stands for the position it got.
  have hlogged : Kept h (p.commits.zip h.commits ++ [(c, h.records.length)]) (s₁.appended r) := by
    have hk₁ := (Move.append s₁ r).kept (hnote.kept hr.kept)
    obtain ⟨_, _, _, _, _, _, _, ht₁⟩ := (hnote.kept hr.kept).tracks
    have happly : h.applyAll (s₁.appended r).effects = h.apply (.appendWal r) := by
      rw [show h.applyAll (s₁.appended r).effects = _ from applyAll_emit h, heff₁]
      rfl
    refine ⟨hk₁.guarded, hk₁.tracks, ?_⟩
    intro x hx
    obtain hx | hx := mem_append.mp hx
    · exact hk₁.commits x hx
    · obtain rfl := mem_singleton.mp hx
      rw [happly, ← hcommit, ← hwal₁]
      exact CommitAt.new h s₁.engine.wal ht₁.synced_le r
  have hkept₂ := Moves.kept hmoves hlogged
  have hstart₂ : s₂.start = p.disk := (Moves.start hmoves).trans hnote.start
  generalize hs : (if sync then s₂.syncThrough c else s₂) = s at hwrite
  have hfinal : Moves s₂ s := by
    rw [← hs]
    split_ifs
    · exact s₂.syncThrough_moves
    · exact .refl
  have hkept := Moves.kept hfinal hkept₂
  have hexec : p.exec (.write stamping sync wall now key value) =
      ({ p with commits := p.commits ++ [c] } : Process).commit s := by
    rw [← hwrite, ← hcommit]
    rfl
  obtain ⟨hc, hsy⟩ := h.applyAll_commits s.effects
  refine ⟨s, by rw [hexec]; rfl, by rw [Process.step, hexec]; rfl, (Moves.start hfinal).trans hstart₂, ?_, ?_, ?_, ?_⟩
  · rw [← hs]
    split_ifs
    · obtain ⟨w, heng⟩ := s₂.engine_syncThrough
      exact hpersisted.of_eq (by rw [heng]) (by rw [heng]) s₂.manifest_syncThrough
    · exact hpersisted
  · rw [Process.step, hexec]
    simp only [commit, acknowledge, hc, length_append, hr.length]
    rfl
  · rw [Process.step, hexec]
    simp only [commit, acknowledge, hc]
    rw [zip_append hr.length]
    exact hkept
  · intro i hi
    simp only [acknowledge, hsy] at hi
    obtain hi | hi := mem_append.mp hi
    · exact hr.still_synced _ hi
    · split_ifs at hi with hsync
      · obtain rfl := mem_singleton.mp hi
        rw [← hs, if_pos hsync]
        exact hkept₂.syncThrough (by simp)
      · cases hi

theorem Running.returned (hr : Running p h) (habove : SealsAbove p op) : ∃ s, Returned p h op s := by
  cases hop : op.isWrite with
  | false => exact returned_maintenance hr habove hop
  | true =>
    cases op with
    | write stamping sync wall now key value =>
      exact returned_write hr habove
    | _ => cases hop

namespace System

def Inv (s : System) : Prop :=
  s.opts.ephemeral = false ∧
  match s.status with
  | .up p => Running p s.history
  | .down d => (∃ l0 levels gone inTables, Recoverable s.history d l0 levels gone inTables) ∧
      (∀ i ∈ s.history.synced, i < s.history.durable) ∧ s.history.commits = []

theorem inv_init {opts : EngineOptions} (h : opts.ephemeral = false) : (init opts).Inv := by
  refine ⟨h, ⟨[], [], 0, 0, rfl, le_rfl, le_rfl, le_rfl, le_rfl, le_rfl, ?_, .inr ⟨rfl, rfl, rfl⟩, ?_, ?_, ?_⟩,
    ?_, rfl⟩
  · intro n hn
    cases hn
  · intro t ht
    cases ht
  · exact .nil
  · exact represents_nil
  · intro i hi
    cases hi

theorem running_step {history : History} (h : Running p history) (habove : SealsAbove p op) :
    Running (p.step op) ((history.applyAll (p.exec op).2).acknowledge history.records.length op) := by
  obtain ⟨t, ht⟩ := h.returned habove
  obtain ⟨hrec, hdur⟩ := (history.applyAll t.effects).acknowledge_records
  have hkept := ht.kept.restart hrec hdur
  rw [← ht.session] at hkept
  have hsound : (p.step op).Sound := by
    cases hop : op.isWrite with
    | false => exact (step_maintenance h.sound hop).1
    | true =>
      cases op with
      | write stamping sync wall now key value =>
        exact (step_write h.sound stamping sync wall now key value).1
      | _ => cases hop
  have hengine : (p.step op).engine = t.engine := congrArg Session.engine ht.session
  have hdisk : (p.step op).disk = t.disk := congrArg start ht.session
  rw [ht.effects]
  refine ⟨hsound, ?_, ht.length, hkept, ?_⟩
  · rw [hengine, hdisk]
    exact ht.persisted
  · rw [hdur]
    exact ht.synced

theorem inv_step {s : System} (h : s.Inv) (hsafe : s.Safe event) :
    (s.step event).Inv := by
  obtain ⟨hpersist, hinv⟩ := h
  obtain ⟨opts, status, history⟩ := s
  cases status with
  | up p =>
    cases event with
    | op op => exact ⟨hpersist, running_step hinv hsafe⟩
    | crash op cut kept =>
      have hrun : Running p history := hinv
      have habove : SealsAbove p op := hsafe
      obtain ⟨t, ht⟩ := hrun.returned habove
      obtain ⟨l0, levels, gone, inTables, hr⟩ := ht.kept.guarded cut
      rw [ht.start, ← ht.effects] at hr
      refine ⟨hpersist, ⟨l0, levels, gone, inTables, hr.crash kept⟩, ?_, rfl⟩
      intro i hi
      have hold : i ∈ (history.applyAll ((p.exec op).2.take cut)).synced := hi
      rw [(history.applyAll_commits _).2] at hold
      exact hrun.still_synced _ hold
    | reopen wall => exact ⟨hpersist, hinv⟩
  | down d =>
    cases event with
    | op op => exact ⟨hpersist, hinv⟩
    | crash op cut kept => exact ⟨hpersist, hinv⟩
    | reopen wall =>
      obtain ⟨⟨l0, levels, gone, inTables, hr⟩, hsynced, hcommits⟩ := hinv
      obtain ⟨t, hopen, hsound, hpersisted, htracks, -, -⟩ := hr.reopen hpersist wall
      simp only [step, hopen]
      refine ⟨hpersist, hsound, hpersisted, ?_, ⟨?_, ⟨l0, levels, gone, inTables, [], [],
        d.segments.entries, htracks⟩, ?_⟩, hsynced⟩
      · rw [hcommits]
        rfl
      · intro k
        rw [show (ofSession t).session.effects = [] from rfl, take_nil]
        exact ⟨l0, levels, gone, inTables, htracks.recoverable⟩
      · intro x hx
        cases hx

theorem inv_run {opts : EngineOptions} (hpersist : opts.ephemeral = false)
    (hrun : Along step Safe (init opts) events) : ((init opts).run events).Inv :=
  hrun.invariant (fun _ _ h hsafe => inv_step h hsafe) (inv_init hpersist)

end System

theorem System.reopened_keeps {opts : EngineOptions} (hpersist : opts.ephemeral = false)
    (hrun : Along step Safe (init opts) events) (hdown : ((init opts).run events).isDown = true)
    {wall : UInt64} :
    let s := (init opts).run events
    s.history.durable ≤ s.history.records.length ∧ (∀ i ∈ s.history.synced, i < s.history.durable) ∧
    ∃ e, s.reopened wall = some e ∧ e.ttlMs = none ∧ ∀ i r, s.history.records[i]? = some r →
      Keeps Tombstone s.history.writes i r.write (e.getVersioned r.key).1 := by
  have hinv := inv_run hpersist hrun
  generalize (init opts).run events = s at hinv hdown
  obtain ⟨opts', status, history⟩ := s
  cases status with
  | up p => cases hdown
  | down d =>
    obtain ⟨hpersist', ⟨l0, levels, gone, inTables, hr⟩, hsynced, -⟩ := hinv
    obtain ⟨t, hopen, hsound, -, -, hlayers, hcache⟩ := hr.reopen hpersist' wall
    refine ⟨hr.durable_le_length, hsynced, t.engine, by simp [reopened, hopen], hsound.ttl, ?_⟩
    intro i r hi
    rw [getVersioned_of_exact (by intro k v hk; rw [hcache] at hk; cases hk), hlayers]
    exact hr.represents.read (by rw [History.writes, getElem?_map, hi]; rfl)

-- Every write whose commit was synced is there after every later open, itself or a write of
-- the same key that does not come before it.
theorem synced_write_kept (opts : EngineOptions) (hpersist : opts.ephemeral = false)
    (events : List Event) (hrun : Along System.step System.Safe (System.init opts) events)
    (hdown : ((System.init opts).run events).isDown = true) (wall : UInt64) :
    let s := (init opts).run events
    ∃ e, s.reopened wall = some e ∧ ∀ i ∈ s.history.synced, ∃ r, s.history.records[i]? = some r ∧
      Keeps Tombstone s.history.writes i r.write (e.getVersioned r.key).1 := by
  obtain ⟨hlen, hsynced, e, hopen, -, hkeep⟩ := reopened_keeps hpersist hrun hdown
  intro s
  refine ⟨e, hopen, ?_⟩
  intro i hi
  have hlt : i < s.history.records.length := (hsynced i hi).trans_le hlen
  exact ⟨s.history.records[i], getElem?_eq_getElem hlt, hkeep i _ (getElem?_eq_getElem hlt)⟩

def sealEveryWrite : EngineOptions := ⟨1, 4, 8, 0, 0, false⟩

theorem synced_write_kept_after_seal :
    let s := (init sealEveryWrite).run
      [.reopen 0, .op (.write (.given ⟨1, 0⟩) true 0 0 [1] (.put [7])), .crash .clearReadCache 0 0]
    ∃ e, s.reopened 0 = some e ∧ ∀ i ∈ s.history.synced, ∃ r, s.history.records[i]? = some r ∧
      Keeps Tombstone s.history.writes i r.write (e.getVersioned r.key).1 :=
  synced_write_kept sealEveryWrite rfl _ (by decide) (by decide) 0

-- After the open the numbering starts over: the second write's log is renamed
-- over the segment that holds the first.
theorem synced_write_lost :
    let s := (init sealEveryWrite).run
      [.reopen 0, .op (.write (.given ⟨1, 0⟩) true 0 0 [1] (.put [7])), .crash .clearReadCache 0 0,
        .reopen 0, .op (.write (.given ⟨2, 0⟩) true 0 0 [2] (.put [8])), .crash .clearReadCache 0 0]
    0 ∈ s.history.synced ∧ s.history.records[0]? = some ⟨⟨1, 0⟩, [1], .put [7]⟩ ∧
    (s.history.records.filter (fun r => r.key = [1])).length = 1 ∧
    (s.reopened 0).map (fun e => (e.getVersioned [1]).1) = some none := by
  decide

theorem NotBefore.of_stampsIncrease {records : List WalRecord}
    (hincr : StampsIncrease (records.map (fun r => (r.key, r.hlc)))) {i : Nat} {r : WalRecord}
    (hi : records[i]? = some r) {v : Version} (h : NotBefore (records.map WalRecord.write) i r.write v) :
    r.hlc ≤ v.1 ∧ ∃ j w, i ≤ j ∧ records[j]? = some w ∧ w.key = r.key ∧ (w.hlc, w.op) = v := by
  obtain ⟨j, hj, hle⟩ := h
  rw [getElem?_map] at hj
  obtain ⟨w, hw, hwrite⟩ := Option.map_eq_some_iff.mp hj
  have hkey : w.key = r.key := congrArg Prod.fst hwrite
  have hver : (w.hlc, w.op) = v := congrArg Prod.snd hwrite
  subst hver
  have hordered : ∀ {a b : Nat} {x y : WalRecord}, a < b → records[a]? = some x → records[b]? = some y →
      x.key = y.key → x.hlc < y.hlc := by
    intro a b x y hab hx hy hxy
    obtain ⟨ha, rfl⟩ := List.getElem?_eq_some_iff.mp hx
    obtain ⟨hb, rfl⟩ := List.getElem?_eq_some_iff.mp hy
    have hpair := pairwise_iff_getElem.mp (pairwise_map.mp hincr)
    exact hpair a b ha hb hab hxy
  have hij : i ≤ j := by
    obtain hij | hstamp := hle
    · exact hij
    · by_contra hlt
      exact absurd (hordered (by omega) hw hi hkey) (not_lt.mpr hstamp)
  refine ⟨?_, j, w, hij, hw, hkey, rfl⟩
  obtain rfl | hlt := Nat.eq_or_lt_of_le hij
  · obtain rfl := Option.some.inj (hi.symm.trans hw)
    exact le_rfl
  · exact (hordered hlt hi hw hkey.symm).le

-- In such a run whose stamps increase per key, an open never brings back a
-- version older than a durable one, nor a key whose delete was durable.
theorem reopen_reads_no_older_version (opts : EngineOptions) (hpersist : opts.ephemeral = false)
    (events : List Event) (hrun : Along System.step System.Safe (System.init opts) events)
    (hdown : ((System.init opts).run events).isDown = true)
    (hincr : StampsIncrease
      (((System.init opts).run events).history.records.map (fun r => (r.key, r.hlc))))
    (wall : UInt64) :
    let s := (init opts).run events
    ∃ e, s.reopened wall = some e ∧ ∀ i < s.history.durable, ∃ r, s.history.records[i]? = some r ∧
      (∀ v, (e.getVersioned r.key).1 = some v → r.hlc ≤ v.1) ∧
      ((e.getVersioned r.key).1 = none → ∃ j w, i ≤ j ∧ s.history.records[j]? = some w ∧
        w.key = r.key ∧ w.op = .delete) ∧
      (r.op = .delete → ∀ now bytes, (e.get now r.key).1 = some bytes →
        ∃ j w, i < j ∧ s.history.records[j]? = some w ∧ w.key = r.key ∧ w.op = .put bytes) := by
  obtain ⟨hlen, -, e, hopen, httl, hkeep⟩ := reopened_keeps hpersist hrun hdown
  intro s
  refine ⟨e, hopen, ?_⟩
  intro i hi
  have hlt : i < s.history.records.length := hi.trans_le hlen
  have hget : s.history.records[i]? = some s.history.records[i] := getElem?_eq_getElem hlt
  generalize s.history.records[i] = r at hget
  have hkeeps := hkeep i r hget
  refine ⟨r, hget, ?_, ?_, ?_⟩
  · intro v hv
    rw [hv] at hkeeps
    exact (NotBefore.of_stampsIncrease hincr hget hkeeps).1
  · intro hnone
    rw [hnone] at hkeeps
    obtain ⟨v, hnot, hdead⟩ := hkeeps
    obtain ⟨-, j, w, hij, hw, hkey, rfl⟩ := NotBefore.of_stampsIncrease hincr hget hnot
    exact ⟨j, w, hij, hw, hkey, hdead⟩
  · intro hdelete now bytes hbytes
    obtain ⟨hlc, hv⟩ : ∃ hlc, (e.getVersioned r.key).1 = some (hlc, .put bytes) := by
      unfold Engine.get at hbytes
      revert hbytes
      obtain ⟨_ | ⟨hlc, _ | _⟩, e'⟩ := e.getVersioned r.key
      · simp
      · simp [rowExpired, httl, versionToValue]
      · simp [versionToValue]
    rw [hv] at hkeeps
    obtain ⟨-, j, w, hij, hw, hkey, hver⟩ := NotBefore.of_stampsIncrease hincr hget hkeeps
    have hop : w.op = .put bytes := congrArg Prod.snd hver
    obtain rfl | hlt' := Nat.eq_or_lt_of_le hij
    · -- The write itself is a delete.
      obtain rfl := Option.some.inj (hget.symm.trans hw)
      rw [hdelete] at hop
      cases hop
    · exact ⟨j, w, hlt', hw, hkey, hop⟩

def roomyLog : EngineOptions := ⟨1000, 4, 8, 0, 0, false⟩

def flushFirstOfTwo : List Event :=
  [.reopen 0, .op (.write (.given ⟨1, 0⟩) true 0 0 [9] (.put [1])), .op .freeze,
    .op (.write (.given ⟨5, 0⟩) true 0 0 [1] (.put [7])), .op .freeze, .op .takeFlush, .op (.buildFlush 0),
    .op (.installFlush 0), .crash .clearReadCache 0 0, .reopen 0]

theorem reopen_reads_no_older_version_than_delete :
    let s := (init roomyLog).run (flushFirstOfTwo ++
      [.op (.write (.given ⟨9, 0⟩) true 0 0 [1] .delete), .crash .clearReadCache 0 0])
    ∃ e, s.reopened 0 = some e ∧ ∀ i < s.history.durable, ∃ r, s.history.records[i]? = some r ∧
      (∀ v, (e.getVersioned r.key).1 = some v → r.hlc ≤ v.1) ∧
      ((e.getVersioned r.key).1 = none → ∃ j w, i ≤ j ∧ s.history.records[j]? = some w ∧
        w.key = r.key ∧ w.op = .delete) ∧
      (r.op = .delete → ∀ now bytes, (e.get now r.key).1 = some bytes →
        ∃ j w, i < j ∧ s.history.records[j]? = some w ∧ w.key = r.key ∧ w.op = .put bytes) :=
  reopen_reads_no_older_version roomyLog rfl _ (by decide) (by decide) (by decide) 0

-- A flush after the open seals under number 1 again and drops segments up to 1
-- only. The put in the leftover segment 2 then shadows the flushed delete.
theorem durable_delete_undone :
    let s := (init roomyLog).run (flushFirstOfTwo ++
      [.op (.write (.given ⟨9, 0⟩) true 0 0 [1] .delete), .op (.flush 0), .crash .clearReadCache 0 0])
    s.history.records = [⟨⟨1, 0⟩, [9], .put [1]⟩, ⟨⟨5, 0⟩, [1], .put [7]⟩, ⟨⟨9, 0⟩, [1], .delete⟩] ∧
    s.history.durable = 3 ∧
    (s.reopened 0).map (fun e => ((e.getVersioned [1]).1, (e.get 0 [1]).1)) =
      some (some (⟨5, 0⟩, .put [7]), some [7]) := by
  decide

end Skaidb.Storage
