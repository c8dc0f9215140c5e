import Skaidb.Storage.Engine.Transparency

namespace Skaidb.Storage

open Skaidb.Base List OrdMap Option Engine Session Process

section Clock

namespace Session

variable (s : Session)

@[simp] theorem clock_freeze : s.freeze.engine.clock = s.engine.clock := rfl

@[simp] theorem clock_installFlush : (s.installFlush job sst).engine.clock = s.engine.clock := by
  unfold installFlush
  dsimp only
  split
  · rfl
  · rw [engine_dropFlushed]
    rfl

theorem clock_takeFlushJob {e e' : Engine} (h : e.takeFlushJob = some (job, e')) : e'.clock = e.clock := by
  unfold takeFlushJob at h
  split at h
  · cases h
  · split at h
    · cases h
    · split at h
      · cases h
      · cases h
        rfl

@[simp] theorem clock_drainFrozen {s : Session} : (drainFrozen fuel s).engine.clock = s.engine.clock := by
  induction fuel generalizing s with
  | zero => rfl
  | succ fuel ih =>
    rw [drainFrozen]
    split
    · rfl
    case h_2 job e htake =>
      rw [ih, clock_installFlush]
      exact clock_takeFlushJob htake

theorem clock_mergeRun (withL0 : Bool) (level width : Nat) (deepest : Bool)
    (expireBefore : Option Nat) (keepAfter : Nat) :
    (s.mergeRun withL0 level width deepest expireBefore keepAfter).1.engine.clock = s.engine.clock :=
  rfl

theorem clock_cascade (expireBefore : Option Nat) (keepAfter fuel level : Nat) (s : Session) :
    (cascade expireBefore keepAfter fuel level s).1.engine.clock = s.engine.clock := by
  induction fuel generalizing level s with
  | zero => rfl
  | succ fuel ih =>
    rw [cascade]
    split
    · rfl
    · split
      · rfl
      · exact (ih _ _).trans (clock_mergeRun ..)

@[simp] theorem clock_maybeCompact : (s.maybeCompact now).engine.clock = s.engine.clock := by
  unfold maybeCompact
  split
  · rfl
  · dsimp only
    exact (clock_cascade ..).trans (clock_mergeRun ..)

@[simp] theorem clock_flush : (s.flush now).engine.clock = s.engine.clock := by
  unfold flush
  split
  · rfl
  · rw [clock_maybeCompact, clock_drainFrozen]
    split
    · rfl
    · rfl

@[simp] theorem clock_maybeFlush : (s.maybeFlush now).engine.clock = s.engine.clock := by
  unfold maybeFlush
  split
  · rfl
  · split
    · exact clock_flush s
    · rfl

@[simp] theorem clock_syncThrough (commit : WalCommit) :
    (s.syncThrough commit).engine.clock = s.engine.clock := by
  obtain ⟨wal, heng⟩ := s.engine_syncThrough
  rw [heng]

theorem clock_write : (s.write stamping sync wall now key value).1.engine.clock =
      tick s.engine.clock wall stamping := by
  refine write_rule (P := fun t => t.engine.clock = _) ?_ (fun t commit h => by rw [clock_syncThrough, h])
  rw [clock_maybeFlush, engine_logged]

@[simp] theorem clock_installCompact : (s.installCompact job run).engine.clock = s.engine.clock := by
  unfold installCompact
  split
  · rfl
  · rfl

end Session

theorem Process.clock_step_write (p : Process) (stamping : Stamping) (sync : Bool)
    (wall now : UInt64) (key : Bytes) (value : VersionValue) :
    (p.step (.write stamping sync wall now key value)).engine.clock = tick p.engine.clock wall stamping :=
  clock_write p.session

theorem Process.clock_step {p : Process} {op : Op} (hop : op.isWrite = false) :
    (p.step op).engine.clock = p.engine.clock := by
  cases op with
  | write => cases hop
  | sync i =>
    simp only [step, exec]
    cases p.commits[i]? with
    | none => rfl
    | some commit => exact clock_syncThrough p.session commit
  | read key =>
    obtain ⟨cache, hcache⟩ := p.engine.engine_getVersioned
    show (p.engine.getVersioned key).2.clock = p.engine.clock
    rw [hcache]
  | freeze =>
    simp only [step, exec]
    split <;> rfl
  | flush now => exact clock_flush p.session
  | takeFlush =>
    simp only [step, exec]
    split
    · rfl
    case h_2 job e htake => exact clock_takeFlushJob htake
  | buildFlush i =>
    simp only [step, exec]
    split <;> rfl
  | installFlush i =>
    simp only [step, exec]
    split
    · exact clock_installFlush p.session
    · rfl
  | abortFlush i =>
    simp only [step, exec]
    split <;> rfl
  | takeCompact now =>
    simp only [step, exec]
    split
    · rfl
    case h_2 job e htake => rw [(takeCompactJob_spec htake).1]
  | buildCompact i =>
    simp only [step, exec]
    split
    · split <;> rfl
    · rfl
  | installCompact i =>
    simp only [step, exec]
    split
    · exact clock_installCompact p.session
    · rfl
  | setMaintenanceWatermark hlc =>
    obtain ⟨mark, hmark⟩ := p.engine.engine_setMaintenanceWatermark
    show (p.engine.setMaintenanceWatermark hlc).clock = p.engine.clock
    rw [hmark]
  | setTombstoneRetentionMs ms | clearReadCache => rfl

end Clock

def Engine.current (e : Engine) : Layer Bytes Hlc VersionValue := firstHit e.layers

def Engine.live (e : Engine) (key : Bytes) : Option Bytes :=
  ((e.current key).bind liveVersion).map Prod.snd

variable (opts : EngineOptions) (wall : UInt64)

theorem Process.fresh_current (key : Bytes) : (fresh opts wall).engine.current key = none := by
  obtain ⟨hmem, hfrozen, hl0, hlevels, -⟩ := fresh_eq opts wall
  unfold current
  rw [layers_eq, hmem, frozenMems, hfrozen, tablesLayers, sstablesNewestFirst,
    hl0, hlevels]
  rfl

theorem Process.fresh_live (key : Bytes) : (fresh opts wall).engine.live key = none := by
  unfold live
  rw [fresh_current]
  rfl

theorem current_applyWrite {e : Engine} (h : WriteAbove e key hlc) (value : VersionValue) (other : Bytes) :
    (e.applyWrite key hlc value).current other =
      if other = key then pick (some (hlc, value)) (e.current key) else e.current other := by
  have hold := layers_eq e
  unfold current
  rw [layers_applyWrite, hold, firstHit_cons, firstHit_cons, firstHit_cons, layer_insert]
  split_ifs with heq
  · subst heq
    cases hmem : e.mem.layer other with
    | some v =>
      obtain ⟨u, hu, -⟩ : ∃ u, pick (some (hlc, value)) (some v) = some u ∧ hlc ≤ u.1 :=
        le_pick (.inl rfl)
      rw [some_or, hu, some_or]
    | none =>
      refine (pick_eq_left ?_).symm
      intro v hv
      obtain ⟨layer, hl, hlv⟩ := exists_of_firstHit_eq_some hv
      rcases mem_append.mp hl with hl | hl
      · obtain ⟨m, hm, rfl⟩ := mem_map.mp hl
        obtain ⟨f, hf, rfl⟩ := mem_map.mp (mem_reverse.mp hm)
        exact h.1 f hf v hlv
      · obtain ⟨t, ht, rfl⟩ := mem_map.mp hl
        exact h.2 t ht v hlv
  · rfl

structure Tidy (p : Process) : Prop where
  sound : p.Sound
  inOrder : InOrder p.engine

namespace Tidy

variable {p : Process}

theorem fresh : Tidy (fresh opts wall) :=
  ⟨fresh_sound opts wall, (fresh_inOrder opts).1⟩

theorem get (h : Tidy p) (now : UInt64) (key : Bytes) : (p.engine.get now key).1 = p.engine.live key :=
  get_eq_live h.sound.ttl h.inOrder.cache

theorem scan_sorted (h : Tidy p) : (p.engine.scan now).Pairwise (fun a b => a.1 < b.1) :=
  pairwise_map.mpr (liveRows_spec h.sound.ttl mergedIter_spec.1).1

theorem mem_scan (h : Tidy p) : (key, bytes) ∈ p.engine.scan now ↔ p.engine.live key = some bytes := by
  obtain ⟨hs, hl⟩ := liveRows_spec h.sound.ttl mergedIter_spec.1
  have hcur : newest p.engine.layers key = p.engine.current key :=
    newest_eq_firstHit h.inOrder.descending key
  have hrow : ∀ row, (key, row) ∈ p.engine.scanVersioned now ↔
      (p.engine.current key).bind liveVersion = some row := by
    intro row
    unfold scanVersioned
    rw [← OrdMap.lookup_eq_some_iff hs, hl, mergedIter_spec.2, hcur]
  unfold scan live
  rw [List.mem_map, Option.map_eq_some_iff]
  constructor
  · rintro ⟨⟨k, row⟩, hin, heq⟩
    cases heq
    exact ⟨row, (hrow row).mp hin, rfl⟩
  · rintro ⟨row, hin, rfl⟩
    exact ⟨(key, row), (hrow row).mpr hin, rfl⟩

theorem scan_congr {q : Process} (hp : Tidy p) (hq : Tidy q)
    (h : ∀ key, p.engine.live key = q.engine.live key) : p.engine.scan now = q.engine.scan now' := by
  refine eq_of_lookup_eq hp.scan_sorted hq.scan_sorted ?_
  intro key
  refine ext ?_
  intro bytes
  rw [lookup_eq_some_iff hp.scan_sorted,
    lookup_eq_some_iff hq.scan_sorted, hp.mem_scan, hq.mem_scan, h]

theorem maintain (h : Tidy p) {op : Op} (hop : op.isWrite = false) :
    Tidy (p.step op) ∧ Thins Tombstone p.engine.current (p.step op).engine.current := by
  obtain ⟨hsound, hch⟩ := step_maintenance h.sound hop
  exact ⟨⟨hsound, Changes.inOrder hch h.inOrder⟩,
    (Changes.reworks hch).firstHit_thins h.inOrder.descending⟩

theorem live_maintain (h : Tidy p) {op : Op} (hop : op.isWrite = false) (key : Bytes) :
    (p.step op).engine.live key = p.engine.live key := by
  unfold live
  rw [live_of_thins (h.maintain hop).2]

theorem write (h : Tidy p) (stamping : Stamping) (sync : Bool) (wall now : UInt64)
    (key : Bytes) (value : VersionValue)
    (habove : WriteAbove p.engine key (stamp p.engine.clock wall stamping)) :
    Tidy (p.step (.write stamping sync wall now key value)) ∧ Thins Tombstone (fun other => if other = key then
          pick (some (stamp p.engine.clock wall stamping, value)) (p.engine.current key)
          else p.engine.current other) (p.step (.write stamping sync wall now key value)).engine.current := by
  obtain ⟨hsound, hch⟩ := step_write h.sound stamping sync wall now key value
  have hin := habove.applyWrite value h.inOrder
  refine ⟨⟨hsound, Changes.inOrder hch hin⟩, ?_⟩
  have hthins := (Changes.reworks hch).firstHit_thins hin.descending
  have hcur : firstHit (p.engine.applyWrite key (stamp p.engine.clock wall stamping)
      value).layers = fun other => if other = key then
        pick (some (stamp p.engine.clock wall stamping, value)) (p.engine.current key)
        else p.engine.current other := funext (current_applyWrite habove value)
  rw [hcur] at hthins
  exact hthins

section Newer

variable (h : Tidy p) (stamping : Session.Stamping) (sync : Bool) (wall now : UInt64) (key : Bytes)
  (value : VersionValue)
  (hnew : ∀ v, p.engine.current key = some v → v.1 ≤ Session.stamp p.engine.clock wall stamping)

include h hnew

theorem writeAbove : WriteAbove p.engine key (stamp p.engine.clock wall stamping) := by
  refine writeAbove_of_layers ?_
  intro layer hl v hv
  obtain ⟨w, hw, hle⟩ := newest_le_of_mem hl hv
  rw [newest_eq_firstHit h.inOrder.descending] at hw
  exact hle.trans (hnew w hw)

theorem thins_write : Thins Tombstone
      (fun other => if other = key then some (stamp p.engine.clock wall stamping, value)
        else p.engine.current other) (p.step (.write stamping sync wall now key value)).engine.current := by
  have hthins := (h.write stamping sync wall now key value (h.writeAbove stamping wall key hnew)).2
  rwa [pick_eq_left hnew] at hthins

theorem live_write : Tidy (p.step (.write stamping sync wall now key value)) ∧
      ∀ other, (p.step (.write stamping sync wall now key value)).engine.live other =
        if other = key then versionToValue value else p.engine.live other := by
  refine ⟨(h.write stamping sync wall now key value (h.writeAbove stamping wall key hnew)).1, ?_⟩
  intro other
  unfold live
  rw [live_of_thins (h.thins_write stamping sync wall now key value hnew)]
  split_ifs with heq
  · cases value <;> rfl
  · rfl

end Newer

end Tidy

-- Everything stored was stamped no later than the clock: so it is in an engine
-- that only its own clock stamps.
structure Ahead (p : Process) : Prop where
  tidy : Tidy p
  last : ∀ key v, p.engine.current key = some v → v.1 ≤ p.engine.clock.last

namespace Ahead

variable {p : Process}

theorem fresh : Ahead (fresh opts wall) := by
  refine ⟨Tidy.fresh opts wall, ?_⟩
  intro key v hv
  rw [fresh_current] at hv
  cases hv

theorem maintain (h : Ahead p) {op : Op} (hop : op.isWrite = false) : Ahead (p.step op) := by
  obtain ⟨htidy, hthins⟩ := h.tidy.maintain hop
  refine ⟨htidy, ?_⟩
  intro key v hv
  rw [clock_step hop]
  exact h.last key v (hthins.eq_some hv)

theorem write (h : Ahead p) (sync : Bool) (wall now : UInt64) (key : Bytes) (value : VersionValue)
    (hroom : Room p.engine.clock.last wall) : Ahead (p.step (.write .clock sync wall now key value)) ∧
      ∀ other, (p.step (.write .clock sync wall now key value)).engine.live other =
        if other = key then versionToValue value else p.engine.live other := by
  have hlt : p.engine.clock.last < stamp p.engine.clock wall .clock := lt_advance hroom
  have hnew : ∀ v, p.engine.current key = some v →
      v.1 ≤ stamp p.engine.clock wall .clock :=
    fun v hv => (h.last key v hv).trans hlt.le
  obtain ⟨htidy, hlive⟩ := h.tidy.live_write .clock sync wall now key value hnew
  refine ⟨⟨htidy, ?_⟩, hlive⟩
  intro other v hv
  rw [clock_step_write]
  have hold := (h.tidy.thins_write .clock sync wall now key value hnew).eq_some hv
  split_ifs at hold with heq
  · cases hold
    exact le_refl _
  · exact (h.last other v hold).trans hlt.le

end Ahead

end Skaidb.Storage
