import Skaidb.Storage.Recovery.Serving

namespace Skaidb.Storage

open Skaidb.Base List Option WalRecord History Process Skaidb.Storage.System

variable {e : Engine}

section Cached

def Engine.CachedAs (e : Engine) (w : Write Bytes Hlc VersionValue) : Prop :=
  ∀ found, e.readCache.get w.1 = some found → found = some w.2

theorem cachedAs_changes {e' : Engine} (h : Changes lands e e') (hrep : Represents Tombstone hist e.layers)
    (hw : Latest hist i w) (hlive : ¬ Tombstone w.2) (hcached : e.CachedAs w) : e'.CachedAs w := by
  induction h with
  | refl => exact hcached
  | @tail x y hprev hstep ih =>
    intro found hfound
    obtain hold | ⟨-, hmiss, rfl, -⟩ := hstep.cached hfound
    · exact ih found hold
    · have hread := ((hrep.reworks (Changes.reworks hprev)).read_latest hw).resolve_right
        (fun hnone => hlive hnone.2)
      have hmem : firstHit (x.memtables.map Memtable.layer) w.1 = none := by
        rw [firstHit_eq_none_iff]
        intro layer hl
        obtain ⟨m, hm, rfl⟩ := mem_map.mp hl
        exact hmiss m hm
      rw [show x.layers = x.memtables.map Memtable.layer ++ x.tablesLayers from rfl, firstHit_append,
        hmem, none_or] at hread
      exact hread

theorem getVersioned_latest (hrep : Represents Tombstone hist e.layers) (hw : Latest hist i w)
    (hlive : ¬ Tombstone w.2) (hcached : e.CachedAs w) : (e.getVersioned w.1).1 = some w.2 := by
  have hread := (hrep.read_latest hw).resolve_right (fun hnone => hlive hnone.2)
  obtain heq | ⟨hcache, -⟩ := getVersioned_cases
  · rw [heq, hread]
  · exact hcached _ hcache

end Cached

def Op.writes (key : Bytes) : Op → Bool
  | .write _ _ _ _ k _ => k = key
  | _ => false

def Event.writes (key : Bytes) : Event → Bool
  | .op o => o.writes key
  | .crash o _ _ => o.writes key
  | .reopen _ => false

variable {key : Bytes}

namespace System

variable {s : System} {event : Event}

-- The directory recovers, and a running engine's sources represent its history.
structure Answers (s : System) : Prop where
  inv : s.Inv
  represents : ∀ p, s.status = .up p → Represents Tombstone s.history.writes p.engine.layers

theorem represents_applyWrite {records : List WalRecord}
    (h : Represents Tombstone (records.map write) e.layers) (r : WalRecord) :
    Represents Tombstone ((records ++ [r]).map write) (e.applyWrite r.key r.hlc r.op).layers := by
  rw [layers_eq] at h
  rw [layers_applyWrite, map_append]
  refine h.write (fun key => ?_)
  show _ = if key = r.key then pick (some (r.hlc, r.op)) (e.mem.layer key) else e.mem.layer key
  rw [layer_insert]
  by_cases hkey : key = r.key
  · rw [if_pos hkey, if_pos hkey, hkey]
  · rw [if_neg hkey, if_neg hkey]

theorem Answers.op {p : Process} (h : s.Answers) (hup : s.status = .up p) (op : Op) :
    Represents Tombstone (s.step (.op op)).history.writes (p.step op).engine.layers := by
  have hsound := (h.inv.running hup).sound
  have hrep := h.represents p hup
  rw [History.writes, records_op h.inv hup]
  cases hop : op.isWrite with
  | false =>
    rw [Op.record_eq_none hop, toList_none, append_nil]
    exact hrep.reworks (Changes.reworks (Process.step_maintenance hsound hop).2)
  | true =>
    cases op with
    | write stamping sync wall now key value =>
      have hwrite := represents_applyWrite hrep ⟨Session.stamp p.engine.clock wall stamping, key, value⟩
      exact hwrite.reworks (Changes.reworks (Process.step_write hsound stamping sync wall now key value).2)
    | _ => cases hop

theorem answers_step (h : s.Answers) (hsafe : s.Safe event) : (s.step event).Answers := by
  refine ⟨inv_step h.inv hsafe, ?_⟩
  intro q hq
  obtain hsame | ⟨p, op, hup, rfl⟩ | ⟨p, op, cut, kept, hup, rfl⟩ | ⟨d, wall, t, hdown, rfl, hopen⟩ :=
    h.inv.step_cases event
  · rw [hsame] at hq ⊢
    exact h.represents q hq
  · have hrep := h.op hup op
    rw [step_op hup] at hq hrep ⊢
    cases hq
    exact hrep
  · rw [step_crash hup] at hq
    cases hq
  · obtain ⟨t', hopen', -, hrep, -⟩ := h.inv.reopens hdown wall
    obtain rfl := some.inj (hopen.symm.trans hopen')
    rw [step_reopen hdown hopen] at hq ⊢
    cases hq
    exact hrep

theorem answers_run {opts : EngineOptions} (hpersist : opts.ephemeral = false)
    (hrun : Along step Safe (init opts) events) : ((init opts).run events).Answers :=
  hrun.invariant (fun _ _ h hsafe => answers_step h hsafe) ⟨inv_init hpersist, by rintro p ⟨⟩⟩

section Clock

-- The counter of the clock does not wrap, and there is no further open: an open looks at the
-- stamps in the log only.
def Ticks (s : System) : Event → Prop
  | .op (.write .clock _ wall _ _ _) => ∀ p, s.status = .up p → Room p.engine.clock.last wall
  | .op (.write (.given hlc) _ wall _ _ _) => ∀ p, s.status = .up p → Room (max p.engine.clock.last hlc) wall
  | .reopen _ => s.isDown = false
  | _ => True

structure Below (key : Bytes) (s : System) : Prop where
  inv : s.Inv
  last : ∀ p, s.status = .up p → ∀ r ∈ s.history.records, r.key = key → r.hlc ≤ p.engine.clock.last

theorem below_step (h : s.Below key) (hsafe : s.Safe event) (hticks : s.Ticks event) : (s.step event).Below key := by
  refine ⟨inv_step h.inv hsafe, ?_⟩
  obtain hsame | ⟨p, op, hup, rfl⟩ | ⟨p, op, cut, kept, hup, rfl⟩ | ⟨d, wall, t, hdown, rfl, -⟩ :=
    h.inv.step_cases event
  · rw [hsame]
    exact h.last
  · rw [records_op h.inv hup, step_op hup]
    rintro q ⟨⟩ r hr hkey
    have hold : r ∈ s.history.records → r.hlc ≤ p.engine.clock.last := fun hr => h.last p hup r hr hkey
    cases op with
    | write stamping sync wall now k value =>
      rw [clock_step_write]
      rw [Op.record, toList_some, mem_append, mem_singleton] at hr
      obtain ⟨hlast, hstamp⟩ : p.engine.clock.last ≤ (Session.tick p.engine.clock wall stamping).last ∧
          Session.stamp p.engine.clock wall stamping ≤ (Session.tick p.engine.clock wall stamping).last := by
        cases stamping with
        | clock => exact ⟨(lt_advance (hticks p hup)).le, le_refl _⟩
        | given hlc => exact max_le_iff.mp (lt_advance (hticks p hup)).le
      rcases hr with hr | rfl
      · exact (hold hr).trans hlast
      · exact hstamp
    | _ =>
      rw [clock_step rfl]
      exact hold (by simpa [Op.record] using hr)
  · intro q hq
    rw [step_crash hup] at hq
    cases hq
  · simp [Ticks, isDown, hdown] at hticks

-- After an open whose clock is not behind what is on file, the next stamp is above all others.
theorem newer_since_open (h : s.Below key) (hrun : Along step (fun s e => s.Safe e ∧ s.Ticks e) s events)
    (hup : (s.run events).status = .up p) (hroom : Room p.engine.clock.last wall) :
    ∀ r ∈ (s.run events).history.records, r.key = key → r.hlc < advance p.engine.clock.last wall := by
  have hbelow := hrun.invariant (fun _ _ h hgood => below_step h hgood.1 hgood.2) h
  exact fun r hr hkey => (hbelow.last p hup r hr hkey).trans_lt (lt_advance hroom)

end Clock

section Wins

variable {r : WalRecord}

-- The record at position `i` is durable and the latest write of its key, and a running
-- engine's cache does not say otherwise.
structure Wins (s : System) (i : Nat) (r : WalRecord) : Prop where
  answers : s.Answers
  latest : Latest s.history.writes i r.write
  durable : i < s.history.durable
  cached : ∀ p, s.status = .up p → p.engine.CachedAs r.write

theorem record_key_ne {op : Op} (h : op.writes key = false) : ∀ w ∈ op.record e, w.key ≠ key := by
  intro w hw
  cases op with
  | write stamping sync wall now k value =>
    cases hw
    simpa [Op.writes] using h
  | _ => cases hw

theorem wins_step (h : s.Wins i r) (hlive : ¬ Tombstone r.write.2) (hsafe : s.Safe event)
    (hother : event.writes r.key = false) : (s.step event).Wins i r := by
  have hanswers := answers_step h.answers hsafe
  obtain hsame | ⟨p, op, hup, rfl⟩ | ⟨p, op, cut, kept, hup, rfl⟩ | ⟨d, wall, t, hdown, rfl, hopen⟩ :=
    h.answers.inv.step_cases event
  · rw [hsame]
    exact h
  · have hsound := (h.answers.inv.running hup).sound
    have hrecords := records_op h.answers.inv hup op
    have hlatest : Latest (s.step (.op op)).history.writes i r.write := by
      rw [History.writes, hrecords, map_append]
      refine h.latest.append ?_
      intro u hu
      obtain ⟨w, hw, rfl⟩ := mem_map.mp hu
      exact record_key_ne hother w (mem_toList.mp hw)
    refine ⟨hanswers, hlatest, h.durable.trans_le (durable_op h.answers.inv), ?_⟩
    intro q hq
    rw [step_op hup] at hq
    cases hq
    cases hop : op.isWrite with
    | false =>
      exact cachedAs_changes (step_maintenance hsound hop).2 (h.answers.represents p hup)
        h.latest hlive (h.cached p hup)
    | true =>
      cases op with
      | write stamping sync wall now key value =>
        have hwrite := represents_applyWrite (h.answers.represents p hup)
          ⟨Session.stamp p.engine.clock wall stamping, key, value⟩
        rw [History.writes, hrecords] at hlatest
        refine cachedAs_changes (step_write hsound stamping sync wall now key value).2
          hwrite hlatest hlive ?_
        intro found hfound
        exact h.cached p hup found (ReadCache.get_invalidate hfound).2
      | _ => cases hop
  · obtain ⟨hpre, hle⟩ := records_crash h.answers.inv hup hsafe
    have hdurable := h.answers.inv.durable_crash op cut kept
    refine ⟨hanswers, ?_, h.durable.trans_le hdurable, ?_⟩
    · have hlatest : Latest ((s.history.records ++ (op.record p.engine).toList.take cut).map
          write) i r.write := by
        rw [map_append]
        refine h.latest.append ?_
        intro u hu
        obtain ⟨w, hw, rfl⟩ := mem_map.mp hu
        exact record_key_ne hother w (mem_toList.mp (mem_of_mem_take hw))
      refine hlatest.of_prefix (hpre.map write) ?_
      rw [History.writes, length_map]
      exact h.durable.trans_le hle
    · intro q hq
      rw [step_crash hup] at hq
      cases hq
  · have hhistory := history_reopen s wall
    refine ⟨hanswers, hhistory ▸ h.latest, hhistory ▸ h.durable, ?_⟩
    obtain ⟨t', hopen', -, -, hcache⟩ := h.answers.inv.reopens hdown wall
    obtain rfl := some.inj (hopen.symm.trans hopen')
    intro q hq found hfound
    rw [step_reopen hdown hopen] at hq
    cases hq
    rw [show (ofSession t).engine.readCache.get r.write.1 = none from hcache _] at hfound
    cases hfound

theorem wins_run (h : s.Wins i r) (hlive : ¬ Tombstone r.write.2) (hrun : Along step Safe s events)
    (hother : ∀ event ∈ events, event.writes r.key = false) : (s.run events).Wins i r := by
  induction events generalizing s with
  | nil => exact h
  | cons event events ih =>
    obtain ⟨hfirst, hrest⟩ := forall_mem_cons.mp hother
    exact ih (wins_step h hlive hrun.1 hfirst) hrun.2 hrest

theorem wins_write {p : Process} (h : s.Answers) (hup : s.status = .up p)
    (hsafe : s.Safe (.op (.write stamping true wall now key value))) (hlive : value ≠ .delete)
    (hnew : s.history.Newer ⟨Session.stamp p.engine.clock wall stamping, key, value⟩) :
    (s.step (.op (.write stamping true wall now key value))).Wins s.history.records.length
      ⟨Session.stamp p.engine.clock wall stamping, key, value⟩ := by
  have hsound := (h.inv.running hup).sound
  have hanswers := answers_step h hsafe
  have hrecords := records_op h.inv hup (.write stamping true wall now key value)
  have hlatest : Latest (s.step (.op (.write stamping true wall now key value))).history.writes
      s.history.records.length
      (write ⟨Session.stamp p.engine.clock wall stamping, key, value⟩) := by
    rw [History.writes, hrecords]
    refine ⟨by simp [Op.record, write], ?_, ?_⟩
    · intro j u hj hu hkey
      rw [map_append, getElem?_append_left (by simpa using hj), getElem?_map] at hu
      obtain ⟨w, hw, rfl⟩ := map_eq_some_iff.mp hu
      exact hnew w (mem_of_getElem? hw) hkey
    · intro j u hj hu
      rw [getElem?_eq_none (by simp [Op.record]; omega)] at hu
      cases hu
  refine ⟨hanswers, hlatest, ?_, ?_⟩
  · refine hanswers.inv.synced_lt ?_
    rw [step_op hup]
    simp [acknowledge]
  · intro q hq
    rw [step_op hup] at hq
    cases hq
    rw [History.writes, hrecords] at hlatest
    have hwrite := represents_applyWrite (h.represents p hup)
      ⟨Session.stamp p.engine.clock wall stamping, key, value⟩
    refine cachedAs_changes (step_write hsound stamping true wall now key value).2 hwrite hlatest hlive ?_
    intro found hfound
    exact absurd rfl (ReadCache.get_invalidate hfound).1

end Wins

end System

structure Engine.Returns (e : Engine) (key bytes : Bytes) : Prop where
  get : ∀ now, (e.get now key).1 = some bytes
  scan : ∀ now value, (key, value) ∈ e.scan now ↔ value = bytes
  scanRange : ∀ now start finish rows, e.scanRange now start finish = some rows →
    inRange start finish key = true → ∀ value, (key, value) ∈ rows ↔ value = bytes

theorem mem_liveRows (httl : e.ttlMs = none) {items : List (Bytes × Version)}
    (hs : items.Pairwise (fun a b => a.1 < b.1)) {bytes : Bytes} {hlc : Hlc}
    (hitem : OrdMap.lookup items key = some (hlc, .put bytes)) :
    (key, value) ∈ (items.filterMap (e.liveRow now)).map (fun row => (row.1, row.2.2)) ↔ value = bytes := by
  obtain ⟨hsorted, hlookup⟩ := liveRows_spec httl hs
  have hrow : OrdMap.lookup (items.filterMap (e.liveRow now)) key = some (hlc, bytes) := by
    rw [hlookup, hitem]
    rfl
  rw [List.mem_map]
  constructor
  · rintro ⟨⟨k, stamp, v⟩, hin, heq⟩
    cases heq
    rw [← OrdMap.lookup_eq_some_iff hsorted, hrow] at hin
    cases hin
    rfl
  · rintro rfl
    exact ⟨(key, hlc, value), (OrdMap.lookup_eq_some_iff hsorted).mp hrow, rfl⟩

theorem System.Wins.returns {s : System} {p : Process} {i : Nat} {hlc : Hlc}
    (h : s.Wins i ⟨hlc, key, .put bytes⟩) (hup : s.status = .up p) : p.engine.Returns key bytes := by
  have hlive : ¬ Tombstone (write ⟨hlc, key, .put bytes⟩).2 := by simp [Tombstone, write]
  have hrep := h.answers.represents p hup
  have httl : p.engine.ttlMs = none := (h.answers.inv.running hup).sound.ttl
  have hread : (p.engine.getVersioned key).1 = some (hlc, .put bytes) :=
    getVersioned_latest hrep h.latest hlive (h.cached p hup)
  have hnewest : newest p.engine.layers key = some (hlc, .put bytes) := hrep.newest_latest h.latest hlive
  refine ⟨?_, ?_, ?_⟩
  · intro now
    unfold Engine.get
    cases hfound : p.engine.getVersioned key with
    | mk found e =>
      rw [hfound] at hread
      obtain rfl : found = some (hlc, .put bytes) := hread
      simp [rowExpired, httl, versionToValue]
  · intro now value
    obtain ⟨hsorted, hlookup⟩ := mergedIter_spec
    exact mem_liveRows httl hsorted ((hlookup key).trans hnewest)
  · intro now start finish rows hrows hin value
    obtain ⟨items, hitems, rfl⟩ := map_eq_some_iff.mp hrows
    obtain ⟨hsorted, hlookup⟩ := mergedRange_spec hitems
    exact mem_liveRows httl hsorted (((hlookup key).trans (if_pos hin)).trans hnewest)

-- A local put whose stamp is above the earlier ones of its key is what reads return until
-- the key is written again.
theorem local_put_wins {opts : EngineOptions} (hpersist : opts.ephemeral = false) {before after : List Event}
    {wall now : UInt64} {key bytes : Bytes} {p q : Process}
    (hrun : Along System.step System.Safe (System.init opts)
      (before ++ .op (.write .clock true wall now key (.put bytes)) :: after))
    (hup : ((System.init opts).run before).status = .up p)
    (hnew : ∀ r ∈ ((System.init opts).run before).history.records, r.key = key →
      r.hlc < advance p.engine.clock.last wall) (hother : ∀ event ∈ after, event.writes key = false)
    (hend : ((System.init opts).run
      (before ++ .op (.write .clock true wall now key (.put bytes)) :: after)).status = .up q) :
    q.engine.Returns key bytes := by
  obtain ⟨hbefore, hput, hafter⟩ := along_append.mp hrun
  have hanswers := answers_run hpersist hbefore
  have hwins := wins_write hanswers hup hput (by simp) hnew
  have hwins' := wins_run hwins (by simp [Tombstone, write]) hafter hother
  refine hwins'.returns ?_
  rw [run, foldl_append, foldl_cons] at hend
  exact hend

section Example

def mergeTwo : EngineOptions := ⟨1000, 2, 8, 0, 0, false⟩

-- A put that is flushed, a clean stop, and an open at the given time.
def flushedThenOpened (wall : UInt64) : List Event :=
  [.reopen 0, .op (.write .clock true 5 0 [1] (.put [7])), .op (.flush 0), .crash .clearReadCache 0 0,
    .reopen wall]

theorem local_put_wins_later : ∃ p q, ((System.init mergeTwo).run (flushedThenOpened 9)).status = .up p ∧
      ((System.init mergeTwo).run (flushedThenOpened 9 ++ .op (.write .clock true 9 0 [1] (.put [8])) ::
        [.op (.flush 0), .crash .clearReadCache 0 0, .reopen 10])).status = .up q ∧
      q.engine.Returns [1] [8] := by
  obtain ⟨p, hp⟩ : ∃ p, ((init mergeTwo).run (flushedThenOpened 9)).status = .up p := ⟨_, rfl⟩
  obtain ⟨q, hq⟩ : ∃ q, ((init mergeTwo).run (flushedThenOpened 9 ++
      .op (.write .clock true 9 0 [1] (.put [8])) ::
        [.op (.flush 0), .crash .clearReadCache 0 0, .reopen 10])).status = .up q := ⟨_, rfl⟩
  refine ⟨p, q, hp, hq, local_put_wins rfl (by decide) hp ?_ (by decide) hq⟩
  cases hp
  decide

-- An open sees no stamp of the tables. With the clock set back the put gets a stamp below
-- the flushed one: a scan returns the old value, and so does a get once they are merged.
theorem local_put_loses_to_flushed : (∃ p, ((System.init mergeTwo).run (flushedThenOpened 3 ++
        [.op (.write .clock true 3 0 [1] (.put [8]))])).status = .up p ∧
      (p.engine.get 0 [1]).1 = some [8] ∧ p.engine.scan 0 = [([1], [7])]) ∧
    ∃ p, ((System.init mergeTwo).run (flushedThenOpened 3 ++
        [.op (.write .clock true 3 0 [1] (.put [8])), .op (.flush 0)])).status = .up p ∧
      (p.engine.get 0 [1]).1 = some [7] :=
  ⟨⟨_, rfl, by decide⟩, _, rfl, by decide⟩

end Example

end Skaidb.Storage
