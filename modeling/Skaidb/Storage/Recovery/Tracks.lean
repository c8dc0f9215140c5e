import Skaidb.Storage.Recovery.Recoverable

namespace Skaidb.Storage

open Skaidb.Base List Session Disk History Memtable

abbrev Segment := Nat × List WalRecord

def recordsOf (segments : List Segment) : List WalRecord := (segments.map Prod.snd).flatten

-- A running engine and its directory. The sealed segments are, in order: those in the
-- tables already, those behind the frozen memtables, and those from before the open, which
-- are in the active memtable; with any of these nothing has been sealed yet. The manifest
-- may lag behind the tables during a compaction.
structure Tracks (h : History) (e : Engine) (d : Disk) (l0 levels : List SsTable) (gone inTables : Nat)
    (flushed frozen left : List Segment) : Prop where
  persistent : e.opts.ephemeral = false
  recoverable : Recoverable h d l0 levels gone inTables
  inTables_eq : left = [] → inTables = gone + (recordsOf flushed).length
  tables : Reworks Tombstone (tableLayers (l0 ++ levels)) e.tablesLayers
  segments : d.segments.entries = flushed ++ frozen ++ left
  mems : e.frozen.map (fun f => (f.walSeq, f.mem)) = frozen.map (fun s => (s.1, Memtable.replay s.2))
  wal : ∃ f, d.wal = some f ∧ e.wal.writeOffset = f.records.length ∧
    e.mem = Memtable.replay (recordsOf left ++ f.records)
  leftover : left = [] ∨ (flushed = [] ∧ frozen = [] ∧ e.nextWalSeq = 1)
  next_pos : 1 ≤ e.nextWalSeq
  synced_le : e.wal.synced ≤ e.wal.writeOffset

variable (h : History)

def CommitAt (w : Wal) (c : WalCommit) (i : Nat) : Prop :=
  (c.generation < w.generation ∧ i < h.durable) ∨
  (c.generation = w.generation ∧ i + 1 + w.writeOffset = h.records.length + c.offset ∧
    c.offset ≤ w.writeOffset ∧ (c.offset ≤ w.synced → i < h.durable))

def Guarded (s : Session) : Prop :=
  ∀ k, ∃ l0 levels gone flushed, Recoverable (h.applyAll (s.effects.take k))
    (s.start.applyAll (s.effects.take k)) l0 levels gone flushed

structure Kept (h : History) (commits : List (WalCommit × Nat)) (s : Session) : Prop where
  guarded : Guarded h s
  tracks : ∃ l0 levels gone inTables flushed frozen left,
    Tracks (h.applyAll s.effects) s.engine s.disk l0 levels gone inTables flushed frozen left
  commits : ∀ x ∈ commits, CommitAt (h.applyAll s.effects) s.engine.wal x.1 x.2

theorem History.applyAll_concat (effects : List Effect) (e : Effect) :
    h.applyAll (effects ++ [e]) = (h.applyAll effects).apply e := by
  simp [applyAll]

theorem Guarded.of_eq {h : History} {s s' : Session} (hg : Guarded h s) (hstart : s'.start = s.start)
    (heffects : s'.effects = s.effects) : Guarded h s' := by
  unfold Guarded
  rw [hstart, heffects]
  exact hg

theorem applyAll_emit {s : Session} : h.applyAll (s.emit e).effects = (h.applyAll s.effects).apply e :=
  applyAll_concat h s.effects e

theorem Guarded.emit {h h₁ : History} {s : Session} {e : Effect} (hg : Guarded h s)
    (hhist : h.applyAll s.effects = h₁) (hdisk : s.disk = d₁)
    (hr : Recoverable (h₁.apply e) (d₁.apply e) l0 levels gone flushed) :
    Guarded h (s.emit e) ∧ h.applyAll (s.emit e).effects = h₁.apply e ∧ (s.emit e).disk = d₁.apply e := by
  subst hhist hdisk
  refine ⟨fun k => ?_, applyAll_emit h, s.disk_emit e⟩
  by_cases hk : k ≤ s.effects.length
  · have htake : (s.emit e).effects.take k = s.effects.take k := take_append_of_le_length hk
    rw [htake]
    exact hg k
  · have htake : (s.emit e).effects.take k = s.effects ++ [e] :=
      take_of_length_le (by simp [Session.emit]; omega)
    rw [htake, History.applyAll_concat]
    refine ⟨l0, levels, gone, flushed, ?_⟩
    rw [← disk_emit] at hr
    exact hr

namespace CommitAt

variable {h : History} {w : Wal}

theorem lt_length (hc : CommitAt h w c i) (hd : h.durable ≤ h.records.length) : i < h.records.length := by
  obtain ⟨-, hi⟩ | ⟨-, hpos, hoff, -⟩ := hc
  · omega
  · omega

theorem append (hc : CommitAt h w c i) (r : WalRecord) :
    CommitAt (h.apply (.appendWal r)) { w with writeOffset := w.writeOffset + 1 } c i := by
  obtain hold | ⟨hgen, hpos, hoff, hsync⟩ := hc
  · exact .inl hold
  · refine .inr ⟨hgen, ?_, by simp only; omega, hsync⟩
    simp only [History.apply, length_append, length_singleton]
    omega

theorem new (h : History) (w : Wal) (hsync : w.synced ≤ w.writeOffset) (r : WalRecord) :
    CommitAt (h.apply (.appendWal r)) { w with writeOffset := w.writeOffset + 1 }
      ⟨w.generation, w.writeOffset + 1⟩ h.records.length := by
  refine .inr ⟨rfl, ?_, le_rfl, ?_⟩
  · simp only [History.apply, length_append, length_singleton]
  · intro hle
    simp only at hle
    omega

theorem sync (hc : CommitAt h w c i) (hd : h.durable ≤ h.records.length) :
    CommitAt (h.apply .syncWal) { w with synced := w.writeOffset } c i := by
  have hi := hc.lt_length hd
  obtain ⟨hgen, -⟩ | ⟨hgen, hpos, hoff, -⟩ := hc
  · exact .inl ⟨hgen, hi⟩
  · exact .inr ⟨hgen, hpos, hoff, fun _ => hi⟩

theorem rotate (hc : CommitAt h w c i) (hd : h.durable ≤ h.records.length) :
    CommitAt (h.apply .syncWal) ⟨w.generation + 1, 0, 0⟩ c i := by
  have hi := hc.lt_length hd
  refine .inl ⟨?_, hi⟩
  obtain ⟨hgen, -⟩ | ⟨hgen, -⟩ := hc
  · exact Nat.lt_succ_of_lt hgen
  · exact Nat.lt_succ_of_le hgen.le

end CommitAt

section

variable {h : History} {s s' : Session}

theorem Recoverable.durable_le_length {h : History} {d : Disk} (hr : Recoverable h d l0 levels gone flushed) :
    h.durable ≤ h.records.length := by
  have := hr.length_eq
  have := hr.durable_le
  have := hr.synced_le
  omega

theorem Kept.emit (hk : Kept h cs s) (hstart : s'.start = s.start) (heffects : s'.effects = s.effects ++ [e])
    (ht : Tracks ((h.applyAll s.effects).apply e) s'.engine (s.disk.apply e)
      l0 levels gone inTables flushed frozen left)
    (hcommits : ∀ x ∈ cs, CommitAt ((h.applyAll s.effects).apply e) s'.engine.wal x.1 x.2) : Kept h cs s' := by
  obtain ⟨hg, hhist, hdisk⟩ := hk.guarded.emit rfl rfl ht.recoverable
  have heffects : s'.effects = (s.emit e).effects := heffects
  have hsame : s'.disk = (s.emit e).disk := by
    rw [Session.disk, hstart, heffects]
    rfl
  rw [← hhist, ← heffects] at ht hcommits
  rw [← hdisk, ← hsame] at ht
  exact ⟨hg.of_eq hstart heffects, ⟨_, _, _, _, _, _, _, ht⟩, hcommits⟩

section

variable (hk : Kept h cs s)
  (ht : Tracks (h.applyAll s.effects) s.engine s.disk l0 levels gone inTables flushed frozen left)

include hk ht

private theorem kept_note {e : Engine} (hsame : SameFiles s.engine e) : Kept h cs { s with engine := e } := by
  have htables : e.tablesLayers = s.engine.tablesLayers := by
    rw [Engine.tablesLayers, Engine.sstablesNewestFirst, hsame.l0, hsame.levels]
    rfl
  refine ⟨hk.guarded.of_eq rfl rfl, ⟨l0, levels, gone, inTables, flushed, frozen, left, ?_⟩, ?_⟩
  · exact { ht with
      persistent := by rw [hsame.opts]; exact ht.persistent
      tables := by rw [htables]; exact ht.tables
      mems := hsame.frozen.trans ht.mems
      wal := by rw [hsame.wal, hsame.mem]; exact ht.wal
      leftover := by rw [hsame.nextWalSeq]; exact ht.leftover
      next_pos := by rw [hsame.nextWalSeq]; exact ht.next_pos
      synced_le := by rw [hsame.wal]; exact ht.synced_le }
  · intro x hx
    rw [hsame.wal]
    exact hk.commits x hx

private theorem kept_append : Kept h cs (s.appended r) := by
  obtain ⟨f, hwal, hoff, hmem⟩ := ht.wal
  refine hk.emit rfl rfl { ht with recoverable := ht.recoverable.append hwal r, wal := ?_, synced_le := ?_ }
    (fun x hx => (hk.commits x hx).append r)
  · refine ⟨⟨f.records ++ [r], f.durable⟩, by simp [Disk.apply, hwal], ?_, ?_⟩
    · simp [Session.appended, Session.modify, Session.emit, hoff]
    · simp only [appended, engine_modify, engine_emit]
      rw [hmem, ← append_assoc]
      simp [replay]
  · exact ht.synced_le.trans (Nat.le_succ _)

private theorem kept_sync : Kept h cs ((s.emit .syncWal).modify (fun e =>
      { e with wal := { e.wal with synced := e.wal.writeOffset } })) := by
  obtain ⟨f, hwal, hoff, hmem⟩ := ht.wal
  exact hk.emit rfl rfl { ht with
    recoverable := ht.recoverable.sync
    wal := ⟨⟨f.records, f.records.length⟩, by simp [Disk.apply, hwal], hoff, hmem⟩
    synced_le := le_rfl } (fun x hx => (hk.commits x hx).sync ht.recoverable.durable_le_length)

-- Sealing is safe above all segments: then none is left over.
private theorem kept_freeze
    (habove : ∀ n ∈ s.disk.listSegments, n < s.engine.nextWalSeq) : Kept h cs s.freeze := by
  obtain ⟨f, hwal, hoff, hmem⟩ := ht.wal
  have hleft : left = [] := by
    obtain hnil | ⟨hfl, hfr, hone⟩ := ht.leftover
    · exact hnil
    · cases left with
      | nil => rfl
      | cons seg left =>
        have hmem : seg.1 ∈ s.disk.listSegments := by
          rw [listSegments, ht.segments, hfl, hfr]
          simp
        have := habove _ hmem
        have := ht.recoverable.positive _ hmem
        omega
  subst hleft
  have hr₁ := ht.recoverable.sync
  have hwal₁ : (s.disk.apply .syncWal).wal = some ⟨f.records, f.records.length⟩ := by
    simp [Disk.apply, hwal]
  obtain ⟨hseg, hr₂⟩ := hr₁.rename hwal₁ ht.next_pos habove
  have hr₃ := hr₂.create (by simp [Disk.apply, hwal])
  obtain ⟨hg₁, hhist₁, hdisk₁⟩ := hk.guarded.emit rfl rfl hr₁
  obtain ⟨hg₂, hhist₂, hdisk₂⟩ := hg₁.emit (e := .renameWal s.engine.nextWalSeq) hhist₁ hdisk₁ hr₂
  obtain ⟨hg₃, hhist₃, hdisk₃⟩ := hg₂.emit (e := .createWal) hhist₂ hdisk₂ hr₃
  have hhist : h.applyAll s.freeze.effects = (h.applyAll s.effects).apply .syncWal := hhist₃
  have hdisk : s.freeze.disk = _ := hdisk₃
  refine ⟨hg₃.of_eq rfl rfl, ⟨l0, levels, gone, inTables, flushed,
    frozen ++ [(s.engine.nextWalSeq, f.records)], [], ?_⟩, ?_⟩
  · rw [hhist, hdisk]
    refine ⟨ht.persistent, hr₃, ht.inTables_eq, ht.tables, ?_, ?_, ⟨⟨[], 0⟩, rfl, rfl, rfl⟩, .inl rfl, Nat.succ_pos _,
      le_rfl⟩
    · have hold : (s.disk.apply .syncWal).segments.entries = flushed ++ frozen := by
        rw [← append_nil (flushed ++ frozen)]
        exact ht.segments
      rw [append_nil, ← append_assoc, ← hold]
      exact hseg
    · rw [engine_freeze, map_append, ht.mems, map_append, hmem]
      rfl
  · intro x hx
    rw [hhist]
    exact (hk.commits x hx).rotate ht.recoverable.durable_le_length

private theorem kept_files (hhist : ∀ h' : History, h'.apply e = h')
    (hwal : (s.disk.apply e).wal = s.disk.wal) (hseg : (s.disk.apply e).segments = s.disk.segments)
    (hrec : Recoverable (h.applyAll s.effects) (s.disk.apply e) l0 levels gone inTables) : Kept h cs (s.emit e) := by
  have ht' : Tracks (h.applyAll s.effects) s.engine (s.disk.apply e) l0 levels gone inTables flushed frozen left :=
    { ht with
      recoverable := hrec
      segments := by rw [hseg]; exact ht.segments
      wal := by rw [hwal]; exact ht.wal }
  rw [← hhist (h.applyAll s.effects)] at ht'
  exact hk.emit rfl rfl ht' (by rw [hhist]; exact hk.commits)

private theorem kept_merge {l0' levels' : List SsTable} {nextSeq : Nat}
    (hrework : Reworks Tombstone s.engine.tablesLayers (tableLayers (l0' ++ levels'))) :
    Kept h cs (s.modify (fun e => { e with l0 := l0', levels := levels', nextSeq })) := by
  exact ⟨hk.guarded.of_eq rfl rfl, ⟨_, _, _, _, _, _, _,
    { ht with tables := ht.tables.trans hrework }⟩, hk.commits⟩

private theorem kept_persist
    (hfiles : ∀ t ∈ s.engine.sstablesNewestFirst, s.disk.tables.get? t.path = some t.entries)
    (hnodup : s.engine.paths.Nodup) : Kept h cs s.persistManifest := by
  have hr := ht.recoverable.writeManifest s.engine.l0 s.engine.levels
    ht.recoverable.gone_flushed ht.recoverable.flushed_le hfiles hnodup
    (ht.recoverable.tables.reworks ht.tables)
  exact hk.emit rfl rfl { ht with recoverable := hr, tables := .refl } hk.commits

private theorem kept_push {f : FrozenMem} {rest : List FrozenMem} {sst : SsTable}
    (hfrozen : s.engine.frozen = f :: rest) (hlayer : sst.layer = f.mem.layer)
    (hfiles : ∀ t ∈ sst :: s.engine.sstablesNewestFirst, s.disk.tables.get? t.path = some t.entries)
    (hnodup : (sst.path :: s.engine.paths).Nodup) :
    Kept h cs (((s.modify (fun e => { e with l0 := sst :: e.l0 })).persistManifest).modify
      (fun e => { e with frozen := rest })) := by
  obtain ⟨n, records, frozen', rfl, hmem, hmems⟩ : ∃ n records frozen', frozen = (n, records) :: frozen' ∧
      f.mem = replay records ∧
      rest.map (fun f => (f.walSeq, f.mem)) = frozen'.map (fun s => (s.1, replay s.2)) := by
    have hmems := ht.mems
    rw [hfrozen] at hmems
    cases frozen with
    | nil => cases hmems
    | cons seg frozen' =>
      obtain ⟨hhead, htail⟩ := cons_eq_cons.mp hmems
      exact ⟨seg.1, seg.2, frozen', rfl, (Prod.mk.inj hhead).2, htail⟩
  have hleft : left = [] := by
    obtain hnil | ⟨-, hfr, -⟩ := ht.leftover
    · exact hnil
    · cases hfr
  subst hleft
  have hr := ht.recoverable
  rw [ht.inTables_eq rfl] at hr
  have hsealed : s.disk.sealedRecords = recordsOf flushed ++ (records ++ recordsOf frozen') := by
    simp [sealedRecords, recordsOf, ht.segments]
  have hcount : gone + (recordsOf (flushed ++ [(n, records)])).length =
      gone + (recordsOf flushed).length + records.length := by
    simp [recordsOf, Nat.add_assoc]
  have hle : gone + (recordsOf flushed).length + records.length ≤ gone + s.disk.sealedRecords.length := by
    simp [hsealed]
    omega
  -- The writes the tables will represent, split where the flushed ones end.
  have hdrop : ((h.applyAll s.effects).writes.take
      (gone + (recordsOf flushed).length + records.length)).drop (gone + (recordsOf flushed).length) =
      records.map WalRecord.write := by
    rw [drop_take, Nat.add_sub_cancel_left, writes, ← map_drop, ← map_take,
      ← drop_drop, hr.log, hsealed, append_assoc, drop_left, append_assoc, take_left]
  have hrep : Represents Tombstone
      ((h.applyAll s.effects).writes.take (gone + (recordsOf flushed).length + records.length))
      (tableLayers (sst :: s.engine.l0 ++ s.engine.levels)) := by
    refine Represents.push (m := gone + (recordsOf flushed).length) ?_ le_rfl ?_
    · rw [take_take, Nat.min_eq_left (Nat.le_add_right _ _)]
      exact hr.tables.reworks ht.tables
    · rw [hdrop, hlayer, hmem]
      exact layerOf_replay
  have hr' := hr.writeManifest (sst :: s.engine.l0) s.engine.levels
    (hr.gone_flushed.trans (Nat.le_add_right _ _)) hle hfiles hnodup hrep
  refine hk.emit rfl rfl ⟨ht.persistent, hr', fun _ => hcount.symm, .refl, ?_, hmems, ht.wal, .inl rfl, ht.next_pos,
    ht.synced_le⟩ hk.commits
  refine ht.segments.trans ?_
  simp

private theorem kept_drop (hflushed : ∀ f ∈ s.engine.frozen, n < f.walSeq)
    (hbelow : n < s.engine.nextWalSeq) (hleast : ∀ m ∈ s.disk.listSegments, n ≤ m) :
    Kept h cs (s.emit (.removeSegment n)) := by
  by_cases hin : n ∈ s.disk.listSegments
  · obtain ⟨records, flushed', rfl⟩ : ∃ records flushed', flushed = (n, records) :: flushed' := by
      cases flushed with
      | cons seg flushed' =>
        have hseg := ht.segments
        have hsorted := s.disk.segments.sorted
        rw [hseg, cons_append, cons_append, pairwise_cons] at hsorted
        rw [listSegments, hseg] at hin hleast
        refine ⟨seg.2, flushed', ?_⟩
        have hle : n ≤ seg.1 := hleast seg.1 (by simp)
        obtain heq | hlater := mem_cons.mp hin
        · rw [heq]
        · obtain ⟨other, ho, rfl⟩ := mem_map.mp hlater
          have := hsorted.1 other ho
          omega
      | nil =>
        -- Segments of frozen memtables are above `n`; leftovers rule out a flush.
        rw [listSegments, ht.segments, nil_append, map_append] at hin
        obtain hin | hin := mem_append.mp hin
        · obtain ⟨seg, hseg, rfl⟩ := mem_map.mp hin
          have hmem : (seg.1, replay seg.2) ∈ s.engine.frozen.map (fun f => (f.walSeq, f.mem)) := by
            rw [ht.mems]
            exact mem_map_of_mem hseg
          obtain ⟨f, hf, heq⟩ := mem_map.mp hmem
          have := hflushed f hf
          have := (Prod.mk.inj heq).1
          omega
        · have hpos : 1 ≤ n := by
            refine ht.recoverable.positive n ?_
            rw [listSegments, ht.segments, nil_append, map_append]
            exact mem_append_right _ hin
          obtain hnil | ⟨-, -, hone⟩ := ht.leftover
          · rw [hnil] at hin
            cases hin
          · omega
    have hcount : gone + (recordsOf ((n, records) :: flushed')).length =
        gone + records.length + (recordsOf flushed').length := by
      simp [recordsOf, Nat.add_assoc]
    have hleft : left = [] := by
      obtain hnil | ⟨hcons, -⟩ := ht.leftover
      · exact hnil
      · cases hcons
    have hr := ht.recoverable
    rw [ht.inTables_eq hleft, hcount] at hr
    have hentries : s.disk.segments.entries = (n, records) :: (flushed' ++ frozen ++ left) := ht.segments
    obtain ⟨hrest, hr'⟩ := hr.removeSegment hentries (Nat.le_add_right _ _)
    exact hk.emit rfl rfl { ht with
      recoverable := hr', inTables_eq := fun _ => rfl, segments := hrest, leftover := .inl hleft } hk.commits
  · have hself : s.disk.apply (.removeSegment n) = s.disk := by
      have herase : s.disk.segments.erase n = s.disk.segments := by
        refine OrdMap.ext_entries (filter_eq_self.mpr ?_)
        intro e he
        have hne : e.1 ≠ n := fun heq => hin (heq ▸ mem_map_of_mem he)
        simpa using hne
      simp only [Disk.apply, herase]
    exact kept_files hk ht (fun _ => rfl) (by rw [hself]) (by rw [hself]) (by rw [hself]; exact ht.recoverable)

end

theorem Move.kept (hm : Move s s') (hk : Kept h cs s) : Kept h cs s' := by
  obtain ⟨l0, levels, gone, inTables, flushed, frozen, left, ht⟩ := hk.tracks
  cases hm with
  | note e same => exact kept_note hk ht same
  | append r => exact kept_append hk ht
  | sync => exact kept_sync hk ht
  | freeze above => exact kept_freeze hk ht above
  | table t unlisted => exact kept_files hk ht (fun _ => rfl) rfl rfl (ht.recoverable.writeTable unlisted)
  | merge l0 levels nextSeq rework => exact kept_merge hk ht rework
  | persist files nodup => exact kept_persist hk ht files nodup
  | push f rest sst frozen layer files nodup => exact kept_push hk ht frozen layer files nodup
  | drop n flushed below least => exact kept_drop hk ht flushed below least
  | unlink p unlisted => exact kept_files hk ht (fun _ => rfl) rfl rfl (ht.recoverable.removeTable unlisted)

theorem Moves.kept (hm : Moves s s') (hk : Kept h cs s) : Kept h cs s' := by
  induction hm with
  | refl => exact hk
  | tail _ hstep ih => exact hstep.kept ih

end

end Skaidb.Storage
