import Skaidb.Storage.Retain

namespace Skaidb.Storage

open Skaidb.Base List OrdMap Process Engine Disk

section Disk

variable (e : Engine) (keep : Bytes → Bool) (d : Disk)

theorem get?_retainEffects (hn : n ∉ e.paths) : (d.applyAll (e.retainEffects keep d)).tables.get? n =
      (d.applyAll ((e.survivorTable keep).toList.map Effect.writeTable)).tables.get? n := by
  unfold retainEffects
  rw [applyAll_append, get?_removeTables _ (e.sstablesNewestFirst.map SsTable.path) _ hn, applyAll_append,
    applyAll_append, applyAll_append]
  show (applyAll _ (List.map Effect.removeSegment _)).tables.get? n = _
  rw [tables_removeSegments]
  split_ifs <;> rfl

theorem get?_writeSurvivors_of_ne (hn : n ≠ e.nextSeq) :
    (d.applyAll ((e.survivorTable keep).toList.map Effect.writeTable)).tables.get? n = d.tables.get? n := by
  unfold survivorTable
  split_ifs
  · rfl
  · simp [applyAll, apply, hn]

theorem get?_writeSurvivors {t : SsTable} (ht : t ∈ (e.survivorTable keep).toList) : t.path = e.nextSeq ∧
    (d.applyAll ((e.survivorTable keep).toList.map Effect.writeTable)).tables.get? t.path = some t.entries := by
  unfold survivorTable at ht ⊢
  split_ifs at ht ⊢
  · simp at ht
  · obtain rfl : t = ⟨e.nextSeq, e.survivors keep⟩ := by simpa using ht
    exact ⟨rfl, by simp [applyAll, apply]⟩

end Disk

section Sound

variable {e : Engine} {d : Disk} (keep : Bytes → Bool)

theorem paths_afterRetain : (e.afterRetain keep).paths = (e.survivorTable keep).toList.map SsTable.path := rfl

theorem mem_paths_afterRetain (hn : n ∈ (e.afterRetain keep).paths) : n = e.nextSeq := by
  obtain ⟨t, ht, rfl⟩ := mem_map.mp hn
  exact (get?_writeSurvivors e keep empty ht).1

-- A compaction taken before the retain finds its inputs gone, unless it has none.
theorem Compacting.afterRetain (h : Compacting e [] cj j) : Compacting (e.afterRetain keep) [] cj j := by
  refine ⟨h.no_expiry, ?_, h.output_path, ?_⟩
  · intro n hn
    obtain ⟨hlt, hf, ho⟩ := h.inputs_old n hn
    exact ⟨Nat.lt_add_right _ hlt, hf, ho⟩
  · intro hpresent
    have hnone : j.1.inputs = [] := by
      rw [eq_nil_iff_forall_not_mem]
      intro n hn
      have heq := mem_paths_afterRetain keep ((inputsPresent_iff ..).mp hpresent n hn)
      have hlt := (h.inputs_old n hn).1
      omega
    obtain ⟨i0, i1, -, -, -, -, hpaths, hmerge⟩ := h.span (by simp [hnone, inputsPresent])
    obtain ⟨rfl, rfl⟩ : i0 = [] ∧ i1 = [] := by simpa [hnone] using hpaths
    refine ⟨[], [], [], (e.afterRetain keep).levels, [], ⟨rfl, by simp, by simp, ?_⟩, by simp [hnone], hmerge⟩
    exact fun _ => .inr (by simp)

theorem WellFormed.afterRetain (h : WellFormed e d [] cj) :
    WellFormed (e.afterRetain keep) (d.applyAll (e.retainEffects keep d)) [] cj := by
  have hold : ∀ n ∈ e.paths, n < e.nextSeq := fun n hn => h.below n (by simp [reserved, hn])
  have hout : ∀ n ∈ cj.map (fun j => j.1.output), n < e.nextSeq ∧ n ∉ e.paths := by
    intro n hn
    refine ⟨h.below n (by simp only [reserved, mem_append]; exact .inr hn), ?_⟩
    have hnodup := h.nodup
    simp only [reserved, map_nil, append_nil] at hnodup
    exact fun hmem => (nodup_append.mp hnodup).2.2 n hmem n hn rfl
  have hnew : e.nextSeq ∉ e.paths := fun hmem => (hold _ hmem).ne rfl
  refine ⟨h.ttl, ?_, ?_, ?_, by simp, ?_, by simp [Engine.afterRetain], by simp [Engine.afterRetain],
    .inl ⟨rfl, by simp [Engine.afterRetain]⟩, fun j hj => (h.compacting j hj).afterRetain keep⟩
  · simp only [reserved, map_nil, append_nil]
    refine nodup_append.mpr ⟨?_, ?_, ?_⟩
    · rw [paths_afterRetain]
      cases e.survivorTable keep <;> simp
    · have hnodup := h.nodup
      exact (nodup_append.mp hnodup).2.1
    · intro a ha b hb heq
      have hlt := (hout b hb).1
      rw [← heq, mem_paths_afterRetain keep ha] at hlt
      omega
  · intro n hn
    simp only [reserved, map_nil, append_nil, mem_append] at hn
    obtain hn | hn := hn
    · rw [paths_afterRetain] at hn
      obtain ⟨t, ht, rfl⟩ := mem_map.mp hn
      rw [(get?_writeSurvivors e keep d ht).1]
      exact Nat.lt_add_of_pos_right (length_pos_of_mem ht)
    · exact Nat.lt_add_right _ (hout n hn).1
  · intro t ht
    obtain ⟨hpath, hget⟩ := get?_writeSurvivors e keep d ht
    rw [get?_retainEffects e keep d (hpath ▸ hnew)]
    exact hget
  · intro j hj run hrun
    have hpath := (h.compacting j hj).output_path run hrun
    obtain ⟨hlt, hnot⟩ := hout run.path (hpath ▸ mem_map_of_mem hj)
    rw [get?_retainEffects e keep d hnot, get?_writeSurvivors_of_ne e keep d hlt.ne]
    exact h.compact_built j hj run hrun

end Sound

-- No source of a read has a value under the key. A cached absence or tombstone
-- may be left over.
structure Absent (e : Engine) (key : Bytes) : Prop where
  layers : ∀ layer ∈ e.layers, layer key = none
  cache : ∀ hlc bytes, e.readCache.get key ≠ some (some (hlc, .put bytes))

variable (keep : Bytes → Bool)

namespace Absent

variable {e e' : Engine}

theorem invisible (h : Absent e key) :
    (∀ now, (e.get now key).1 = none) ∧ ∀ row ∈ e.scanVersionedWithTombstones, row.1 ≠ key := by
  constructor
  · intro now
    have hfound : ∀ v, (e.getVersioned key).1 = some v → Tombstone v := by
      rintro ⟨hlc, value⟩ hv
      obtain heq | ⟨hcache, -⟩ := getVersioned_cases
      · rw [hv, firstHit_eq_none_iff.mpr h.layers] at heq
        cases heq
      · rw [hv] at hcache
        cases value with
        | put bytes => exact absurd hcache (h.cache hlc bytes)
        | delete => rfl
    unfold Engine.get
    dsimp only
    split
    case h_1 hlc value hv =>
      have hdead : value = .delete := hfound _ hv
      rw [hdead]
      split_ifs <;> rfl
    · rfl
  · rintro ⟨k, v⟩ hrow rfl
    have hlookup : OrdMap.lookup e.mergedIter k = some v :=
      (lookup_eq_some_iff mergedIter_spec.1).mpr hrow
    rw [mergedIter_spec.2, newest_eq_none h.layers] at hlookup
    cases hlookup

theorem change (h : Absent e key) (hc : Change lands e e') : Absent e' key := by
  constructor
  · intro layer hl
    cases hv : layer key with
    | none => rfl
    | some v =>
      obtain ⟨source, hs, hsv⟩ := Reworks.version_mem (Change.reworks hc) hl hv
      rw [h.layers source hs] at hsv
      cases hsv
  · intro hlc bytes hget
    obtain hold | ⟨-, -, hr, -⟩ := hc.cached hget
    · exact h.cache hlc bytes hold
    · have hnone : firstHit (tableLayers e.sstablesNewestFirst) key = none := by
        rw [firstHit_eq_none_iff]
        exact fun layer hl => h.layers layer (mem_append_right _ hl)
      rw [hnone] at hr
      cases hr

theorem changes (h : Absent e key) (hc : Changes lands e e') : Absent e' key := by
  induction hc with
  | refl => exact h
  | tail _ hstep ih => exact ih.change hstep

theorem applyWrite (h : Absent e key) (hne : key ≠ other) (hlc : Hlc) (value : VersionValue) :
    Absent (e.applyWrite other hlc value) key := by
  have hlayers := h.layers
  rw [layers_eq] at hlayers
  constructor
  · intro layer hl
    rw [layers_applyWrite] at hl
    obtain rfl | hl := mem_cons.mp hl
    · rw [layer_insert, if_neg hne]
      exact hlayers e.mem.layer (by simp)
    · exact hlayers layer (mem_cons_of_mem _ hl)
  · intro stamp bytes hget
    exact h.cache stamp bytes (ReadCache.get_invalidate hget).2

theorem afterRetain (h : keep key = true → ∀ layer ∈ e.layers, layer key = none) :
    Absent (e.afterRetain keep) key := by
  have hsurvivors : (e.survivors keep).get? key = none := by
    unfold survivors OrdMap.get?
    rw [OrdMap.lookup_eq_none_iff]
    rintro ⟨k, v⟩ hrow rfl
    obtain ⟨hrow, hkeep⟩ := mem_filter.mp hrow
    have hlookup : OrdMap.lookup e.mergedIter k = some v :=
      (lookup_eq_some_iff mergedIter_spec.1).mpr hrow
    rw [mergedIter_spec.2, newest_eq_none (h hkeep)] at hlookup
    cases hlookup
  constructor
  · intro layer hl
    rw [layers_eq] at hl
    obtain rfl | hl := mem_cons.mp hl
    · exact Memtable.getEntryVersioned_new key
    · obtain hl | hl := mem_append.mp hl
      · simp [Engine.frozenMems, Engine.afterRetain] at hl
      · obtain ⟨t, ht, rfl⟩ := mem_map.mp hl
        have hlevel : t ∈ (e.survivorTable keep).toList := ht
        unfold survivorTable at hlevel
        split_ifs at hlevel
        · simp at hlevel
        · obtain rfl : t = ⟨e.nextSeq, e.survivors keep⟩ := by simpa using hlevel
          exact hsurvivors
  · intro hlc bytes hget
    rw [show (e.afterRetain keep).readCache =
      ReadCache.new e.opts.readCacheCapacity e.opts.readCacheBytes from rfl, ReadCache.get_new] at hget
    cases hget

end Absent

-- A retain that rewrites the tables finds no flush job in flight. One that has
-- nothing to drop finds no value of a rejected key in the read cache.
def RetainSafe (p : Process) : Call → Prop
  | .op _ => True
  | .retain keep =>
    if (p.engine.rejected keep).isEmpty then
      ∀ key, keep key = false → ∀ hlc bytes, p.engine.readCache.get key ≠ some (some (hlc, .put bytes))
    else p.flushJobs = []

def RetainIdle (p : Process) : Call → Prop
  | .op _ => True
  | .retain keep => (p.engine.rejected keep).isEmpty = false → p.flushJobs = []

theorem RetainSafe.idle {p : Process} (h : RetainSafe p c) : RetainIdle p c := by
  cases c with
  | op op => trivial
  | retain keep =>
    intro hdrop
    rwa [RetainSafe, if_neg (by simp [hdrop])] at h

def Call.writes (key : Bytes) : Call → Bool
  | .op (.write _ _ _ _ k _) => k = key
  | _ => false

namespace Process

variable {p : Process}

theorem call_retain (h : (p.engine.rejected keep).isEmpty = false) :
    p.call (.retain keep) = { p with
      engine := p.engine.afterRetain keep
      disk := p.disk.applyAll (p.engine.retainEffects keep p.disk) } := by
  show (p.commit (p.session.retain keep)).1 = _
  rw [Session.retain_eq keep h]
  rfl

theorem call_retain_self (h : (p.engine.rejected keep).isEmpty = true) : p.call (.retain keep) = p := by
  show (p.commit (p.session.retain keep)).1 = _
  rw [Session.retain_eq_self keep h]
  rfl

theorem call_sound (h : p.Sound) {c : Call} (hidle : RetainIdle p c) : (p.call c).Sound := by
  cases c with
  | op op =>
    cases hw : op.isWrite with
    | false => exact (step_maintenance h hw).1
    | true =>
      cases op with
      | write stamping sync wall now key value => exact (step_write h stamping sync wall now key value).1
      | _ => cases hw
  | retain keep =>
    cases hdrop : (p.engine.rejected keep).isEmpty with
    | true =>
      rw [call_retain_self keep hdrop]
      exact h
    | false =>
      rw [call_retain keep hdrop]
      unfold Sound at h ⊢
      rw [hidle hdrop] at h ⊢
      exact h.afterRetain keep

theorem runCalls_sound (h : p.Sound) {calls : List Call}
    (hsafe : Along Process.call RetainSafe p calls) : (p.runCalls calls).Sound :=
  Along.invariant (fun q c hq (hgood : RetainSafe q c) =>
    call_sound hq hgood.idle) hsafe h

theorem call_absent (h : p.Sound) {key : Bytes} (ha : Absent p.engine key) {c : Call}
    (hw : c.writes key = false) : Absent (p.call c).engine key := by
  cases c with
  | op op =>
    cases hwrite : op.isWrite with
    | false => exact ha.changes (step_maintenance h hwrite).2
    | true =>
      cases op with
      | write stamping sync wall now other value =>
        have hne : key ≠ other := fun heq => by simp [Call.writes, heq] at hw
        exact (ha.applyWrite hne _ value).changes
          (step_write h stamping sync wall now other value).2
      | _ => cases hwrite
  | retain keep =>
    cases hdrop : (p.engine.rejected keep).isEmpty with
    | true =>
      rw [call_retain_self keep hdrop]
      exact ha
    | false =>
      rw [call_retain keep hdrop]
      exact .afterRetain keep (fun _ => ha.layers)

theorem retain_absent {keep : Bytes → Bool} (hkeep : keep key = false) (hsafe : RetainSafe p (.retain keep)) :
    Absent (p.call (.retain keep)).engine key := by
  cases hdrop : (p.engine.rejected keep).isEmpty with
  | false =>
    rw [call_retain keep hdrop]
    exact .afterRetain keep (fun h => absurd h (by simp [hkeep]))
  | true =>
    rw [RetainSafe, if_pos hdrop] at hsafe
    rw [call_retain_self keep hdrop]
    refine ⟨?_, hsafe key hkeep⟩
    -- A version of the key would be in the merged view, and rejected there.
    intro layer hl
    cases hv : layer key with
    | none => rfl
    | some v =>
      obtain ⟨w, hw, -⟩ := newest_le_of_mem hl hv
      rw [← mergedIter_spec.2] at hw
      have hrow := (lookup_eq_some_iff mergedIter_spec.1).mp hw
      have hmem : (key, w) ∈ p.engine.rejected keep := mem_filter.mpr ⟨hrow, by simp [hkeep]⟩
      rw [isEmpty_iff.mp hdrop] at hmem
      cases hmem

-- Whatever is in flight, no two files share a number and every table read is on disk.
theorem runOps_files (opts : EngineOptions) (wall : UInt64) (ops : List Op) :
    let p := (fresh opts wall).runOps ops
    let numbers := reserved p.engine p.flushJobs p.compactJobs
    numbers.Nodup ∧ (∀ n ∈ numbers, n < p.engine.nextSeq) ∧
      ∀ t ∈ p.engine.sstablesNewestFirst, p.disk.tables.get? t.path = some t.entries := by
  have h : ((fresh opts wall).runOps ops).Sound :=
    foldlRecOn ops _ (fresh_sound opts wall) fun _ h op _ => call_sound h (c := .op op) trivial
  exact ⟨h.nodup, h.below, h.on_disk⟩

end Process

-- A rejected key stays invisible until it is written again.
theorem retain_not_undone {p : Process} (hp : p.Sound) (before after : List Call)
    (keep : Bytes → Bool) (key : Bytes)
    (hsafe : Along Process.call RetainSafe p (before ++ .retain keep :: after))
    (hkeep : keep key = false) (hafter : ∀ c ∈ after, c.writes key = false) :
    let e := (p.runCalls (before ++ .retain keep :: after)).engine
    (∀ now, (e.get now key).1 = none) ∧ ∀ row ∈ e.scanVersionedWithTombstones, row.1 ≠ key := by
  obtain ⟨hbefore, hretain, hrest⟩ := along_append.mp hsafe
  have hsound : (before.foldl call p).Sound := runCalls_sound hp hbefore
  have hsound' := call_sound hsound hretain.idle
  have habsent := retain_absent hkeep hretain
  have hrun : p.runCalls (before ++ .retain keep :: after) =
      after.foldl call ((before.foldl call p).call (.retain keep)) := by
    simp [runCalls]
  rw [hrun]
  refine Absent.invisible ?_
  generalize (before.foldl call p).call (.retain keep) = q at hrest hsound' habsent
  -- Both invariants are carried over the calls that follow.
  clear hretain hrun hsafe
  induction after generalizing q with
  | nil => exact habsent
  | cons c after ih =>
    obtain ⟨hc, hrest⟩ := hrest
    exact ih (fun x hx => hafter x (by simp [hx])) (q.call c) hrest (call_sound hsound' hc.idle)
      (call_absent hsound' habsent (hafter c (by simp)))

def eagerMerge : EngineOptions := ⟨1000, 1, 8, 0, 0, false⟩

theorem retain_not_undone_by_compaction : let calls : List Call :=
      [.op (.write (.given ⟨1, 0⟩) true 0 0 [1] (.put [7])),
        .op (.write (.given ⟨2, 0⟩) true 0 0 [2] (.put [8])), .op .freeze, .op .takeFlush,
        .op (.buildFlush 0), .op (.installFlush 0), .op (.takeCompact 0), .op (.buildCompact 0)]
    let e := ((fresh eagerMerge 0).runCalls
      (calls ++ .retain (fun key => key ≠ [1]) :: [.op (.installCompact 0)])).engine
    ((e.get 0 [1]).1 = none ∧ ∀ row ∈ e.scanVersionedWithTombstones, row.1 ≠ [1]) ∧
    (e.get 0 [2]).1 = some [8] := by
  refine ⟨?_, by decide⟩
  refine (retain_not_undone (fresh_sound eagerMerge 0) _ [.op (.installCompact 0)] (fun key => key ≠ [1]) [1]
    ?_ (by decide) (by decide)).imp_left (fun hget => hget 0)
  exact ⟨trivial, trivial, trivial, trivial, trivial, trivial, trivial, trivial,
    by rw [RetainSafe, if_neg (by decide)]; decide, trivial, trivial⟩

-- The flush job lands after the retain and brings its memtable back.
theorem retain_undone_by_flush : let calls : List Call :=
      [.op (.write (.given ⟨1, 0⟩) true 0 0 [1] (.put [7])), .op .freeze, .op .takeFlush, .op (.buildFlush 0),
        .retain (fun key => key ≠ [1])]
    let p := (fresh eagerMerge 0).runCalls calls
    (p.engine.get 0 [1]).1 = none ∧ ((p.call (.op (.installFlush 0))).engine.get 0 [1]).1 = some [7] := by
  decide

end Skaidb.Storage
