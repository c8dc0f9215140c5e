import Skaidb.Storage.Engine.Run
import Skaidb.Storage.Engine.Compaction

namespace Skaidb.Storage

open Skaidb.Base List Engine

abbrev FlushJobs := List (FlushJob × Option SsTable)

abbrev CompactJobs := List (CompactJob × Option SsTable)

def Engine.paths (e : Engine) : List Nat := e.sstablesNewestFirst.map SsTable.path

def reserved (e : Engine) (fj : FlushJobs) (cj : CompactJobs) : List Nat :=
  e.paths ++ fj.map (fun j => j.1.path) ++ cj.map (fun j => j.1.output)

-- At most one flush job is in flight, for the oldest frozen memtable.
def Flushing (frozen : List FrozenMem) (fj : FlushJobs) : Prop :=
  (fj = [] ∧ ∀ f ∈ frozen, f.building = false) ∨
  ∃ job built f rest, fj = [(job, built)] ∧ frozen = f :: rest ∧ f.building = true ∧
    job.mem = f.mem ∧ job.walSeq = f.walSeq ∧ ∀ g ∈ rest, g.building = false

theorem Flushing.job {frozen : List FrozenMem} {job : FlushJob} (h : Flushing frozen [(job, built)]) :
    ∃ f rest, frozen = f :: rest ∧ job.mem = f.mem ∧ job.walSeq = f.walSeq ∧ ∀ g ∈ rest, g.building = false := by
  obtain ⟨hnil, -⟩ | ⟨job', built', f, rest, hcons, hfrozen, -, hrest⟩ := h
  · cases hnil
  · cases hcons
    exact ⟨f, rest, hfrozen, hrest⟩

-- A job whose inputs are all still there can be installed.
structure Compacting (e : Engine) (fj : FlushJobs) (cj : CompactJobs)
    (j : CompactJob × Option SsTable) : Prop where
  no_expiry : j.1.expireBefore = none
  inputs_old : ∀ p ∈ j.1.inputs, p < e.nextSeq ∧ p ∉ fj.map (fun j => j.1.path) ∧
    p ∉ cj.map (fun j => j.1.output)
  output_path : ∀ run, j.2 = some run → run.path = j.1.output
  span : e.inputsPresent j.1.inputs = true → ∃ i0 i1 newer before behind,
    Span e.l0 e.levels j.1.deepest i0 i1 newer before behind ∧
    (i0 ++ i1).map SsTable.path = j.1.inputs ∧
    ∀ run, j.2 = some run → MergeOf (i0 ++ i1) j.1.deepest run

structure WellFormed (e : Engine) (d : Disk) (fj : FlushJobs) (cj : CompactJobs) : Prop where
  ttl : e.ttlMs = none
  nodup : (reserved e fj cj).Nodup
  below : ∀ p ∈ reserved e fj cj, p < e.nextSeq
  on_disk : ∀ t ∈ e.sstablesNewestFirst, d.tables.get? t.path = some t.entries
  flush_built : ∀ j ∈ fj, ∀ sst, j.2 = some sst →
    sst = Engine.buildFlush j.1 ∧ d.tables.get? sst.path = some sst.entries
  compact_built : ∀ j ∈ cj, ∀ run, j.2 = some run → d.tables.get? run.path = some run.entries
  seqs : (e.frozen.map FrozenMem.walSeq).Pairwise (· < ·)
  seqs_below : ∀ f ∈ e.frozen, f.walSeq < e.nextWalSeq
  flushing : Flushing e.frozen fj
  compacting : ∀ j ∈ cj, Compacting e fj cj j

theorem inputsPresent_iff {e : Engine} : e.inputsPresent inputs = true ↔ ∀ p ∈ inputs, p ∈ e.paths := by
  simp [inputsPresent, paths]

variable {e : Engine} {d : Disk} {fj : FlushJobs} {cj : CompactJobs}

theorem WellFormed.paths_nodup (h : WellFormed e d fj cj) : e.paths.Nodup :=
  (nodup_append.mp (nodup_append.mp h.nodup).1).1

variable {e' : Engine} {d' : Disk}

theorem WellFormed.disk_kept (h : WellFormed e d fj cj)
    (hdisk : ∀ p entries, d.tables.get? p = some entries → p ∈ reserved e fj cj →
      d'.tables.get? p = some entries) : (∀ t ∈ e.sstablesNewestFirst, d'.tables.get? t.path = some t.entries) ∧
    (∀ j ∈ fj, ∀ sst, j.2 = some sst → sst = buildFlush j.1 ∧ d'.tables.get? sst.path = some sst.entries) ∧
    ∀ j ∈ cj, ∀ run, j.2 = some run → d'.tables.get? run.path = some run.entries := by
  refine ⟨?_, ?_, ?_⟩
  · intro t ht
    refine hdisk _ _ (h.on_disk t ht) ?_
    simp only [reserved, paths, mem_append, mem_map]
    exact .inl (.inl ⟨t, ht, rfl⟩)
  · intro j hj sst hsst
    obtain ⟨heq, hget⟩ := h.flush_built j hj sst hsst
    refine ⟨heq, hdisk _ _ hget ?_⟩
    simp only [reserved, mem_append, mem_map]
    exact .inl (.inr ⟨j, hj, by rw [heq]; rfl⟩)
  · intro j hj run hrun
    refine hdisk _ _ (h.compact_built j hj run hrun) ?_
    simp only [reserved, mem_append, mem_map]
    exact .inr ⟨j, hj, ((h.compacting j hj).output_path run hrun).symm⟩

-- Fields the jobs and the tables do not look at may change, and table numbers
-- may be skipped.
theorem WellFormed.frame (h : WellFormed e d fj cj) (httl : e'.ttlMs = e.ttlMs) (hl0 : e'.l0 = e.l0)
    (hlevels : e'.levels = e.levels) (hfrozen : e'.frozen = e.frozen)
    (hwal : e'.nextWalSeq = e.nextWalSeq) (hseq : e.nextSeq ≤ e'.nextSeq)
    (hdisk : ∀ p entries, d.tables.get? p = some entries → p ∈ reserved e fj cj →
      d'.tables.get? p = some entries) : WellFormed e' d' fj cj := by
  have htables : e'.sstablesNewestFirst = e.sstablesNewestFirst := by
    simp [sstablesNewestFirst, hl0, hlevels]
  have hpaths : e'.paths = e.paths := by simp [paths, htables]
  have hres : reserved e' fj cj = reserved e fj cj := by simp [reserved, hpaths]
  obtain ⟨htab, hflush, hcompact⟩ := h.disk_kept hdisk
  refine ⟨httl ▸ h.ttl, hres ▸ h.nodup, ?_, htables ▸ htab, hflush, hcompact, hfrozen ▸ h.seqs, ?_,
    hfrozen ▸ h.flushing, ?_⟩
  · intro p hp
    exact (h.below p (hres ▸ hp)).trans_le hseq
  · intro f hf
    rw [hwal]
    exact h.seqs_below f (hfrozen ▸ hf)
  · intro j hj
    have hc := h.compacting j hj
    refine ⟨hc.no_expiry, ?_, hc.output_path, ?_⟩
    · intro p hp
      obtain ⟨hlt, hf, ho⟩ := hc.inputs_old p hp
      exact ⟨hlt.trans_le hseq, hf, ho⟩
    · intro hpresent
      rw [inputsPresent_iff, hpaths, ← inputsPresent_iff] at hpresent
      rw [hl0, hlevels]
      exact hc.span hpresent

variable {out : SsTable}

section

variable (hspan : Span e.l0 e.levels deepest i0 i1 newer before behind) (hl0 : e'.l0 = newer)
  (hlevels : e'.levels = place i0 i1 before behind out)

include hspan hl0 hlevels

private theorem paths_merge : e'.paths.Perm (out.path :: (newer ++ (before ++ behind)).map SsTable.path) ∧
    ((newer ++ (before ++ behind)).map SsTable.path).Sublist e.paths := by
  constructor
  · unfold paths sstablesNewestFirst
    rw [hl0, hlevels]
    exact place_perm.map SsTable.path
  · unfold paths sstablesNewestFirst
    rw [hspan.l0_eq, hspan.levels_eq]
    refine Sublist.map _ (Sublist.append (by simp) ?_)
    rw [append_assoc]
    exact Sublist.append_left (by simp) before

theorem merged_gone (hnodup : e.paths.Nodup) {t : SsTable} (ht : t ∈ i0 ++ i1) (hne : t.path ≠ out.path) :
    t.path ∉ e'.paths := by
  intro hmem
  have hmem' := (paths_merge hspan hl0 hlevels).1.mem_iff.mp hmem
  obtain heq | hmem' := mem_cons.mp hmem'
  · exact hne heq
  · unfold paths sstablesNewestFirst at hnodup
    rw [hspan.l0_eq, hspan.levels_eq] at hnodup
    grind

theorem mem_reserved_merge (hp : p ∈ reserved e' fj cj) : p = out.path ∨ p ∈ reserved e fj cj := by
  obtain ⟨hperm, hsub⟩ := paths_merge hspan hl0 hlevels
  unfold reserved at hp ⊢
  simp only [mem_append] at hp ⊢
  obtain (hp | hp) | hp := hp
  · obtain heq | hp := mem_cons.mp (hperm.mem_iff.mp hp)
    · exact .inl heq
    · exact .inr (.inl (.inl (hsub.subset hp)))
  · exact .inr (.inl (.inr hp))
  · exact .inr (.inr hp)

theorem WellFormed.merge (h : WellFormed e d fj cj) (hm : MergeOf (i0 ++ i1) deepest out)
    (httl : e'.ttlMs = e.ttlMs) (hfrozen : e'.frozen = e.frozen) (hwal : e'.nextWalSeq = e.nextWalSeq)
    (hseq : e.nextSeq ≤ e'.nextSeq) (hout : out.path < e'.nextSeq)
    (hfresh : out.path ∉ reserved e fj cj) (hinputs : ∀ j ∈ cj, out.path ∉ j.1.inputs)
    (hdisk : ∀ p entries, d.tables.get? p = some entries → p ∈ reserved e fj cj →
      d'.tables.get? p = some entries) (houtdisk : d'.tables.get? out.path = some out.entries) :
    WellFormed e' d' fj cj := by
  obtain ⟨hperm, hsub⟩ := paths_merge hspan hl0 hlevels
  have hresperm : (reserved e' fj cj).Perm (out.path :: ((newer ++ (before ++ behind)).map SsTable.path
      ++ fj.map (fun j => j.1.path) ++ cj.map (fun j => j.1.output))) := by
    exact (hperm.append_right _).append_right _
  have hressub : ((newer ++ (before ++ behind)).map SsTable.path ++ fj.map (fun j => j.1.path) ++
      cj.map (fun j => j.1.output)).Sublist (reserved e fj cj) :=
    (hsub.append_right _).append_right _
  obtain ⟨htab, hflush, hcompact⟩ := h.disk_kept hdisk
  refine ⟨httl ▸ h.ttl, ?_, ?_, ?_, hflush, hcompact, hfrozen ▸ h.seqs, ?_, hfrozen ▸ h.flushing, ?_⟩
  · refine hresperm.nodup_iff.mpr (nodup_cons.mpr ⟨?_, h.nodup.sublist hressub⟩)
    exact fun hmem => hfresh (hressub.subset hmem)
  · intro p hp
    obtain rfl | hp := mem_reserved_merge hspan hl0 hlevels hp
    · exact hout
    · exact (h.below p hp).trans_le hseq
  · intro t ht
    unfold sstablesNewestFirst at ht
    rw [hl0, hlevels] at ht
    obtain rfl | ht := mem_cons.mp ((place_perm ..).mem_iff.mp ht)
    · exact houtdisk
    · have htold : t ∈ e.sstablesNewestFirst := by
        unfold sstablesNewestFirst
        rw [hspan.l0_eq, hspan.levels_eq]
        simp only [mem_append] at ht ⊢
        tauto
      exact htab t htold
  · intro f hf
    rw [hwal]
    exact h.seqs_below f (hfrozen ▸ hf)
  · intro j hj
    have hc := h.compacting j hj
    refine ⟨hc.no_expiry, ?_, hc.output_path, ?_⟩
    · intro p hp
      obtain ⟨hlt, hf, ho⟩ := hc.inputs_old p hp
      exact ⟨hlt.trans_le hseq, hf, ho⟩
    · intro hpresent
      have hpresent' := inputsPresent_iff.mp hpresent
      have hbefore : e.inputsPresent j.1.inputs = true := by
        rw [inputsPresent_iff]
        intro p hp
        obtain heq | hmem := mem_cons.mp (hperm.mem_iff.mp (hpresent' p hp))
        · exact absurd (heq ▸ hp) (hinputs j hj)
        · exact hsub.subset hmem
      obtain ⟨a0, a1, newerA, beforeA, behindA, hspanA, hpaths, hbuilt⟩ := hc.span hbefore
      -- An input of this job is still there, so the other merge did not take it.
      have hdisj : ∀ t ∈ a0 ++ a1, t ∉ i0 ++ i1 := by
        intro t hta hti
        have hin : t.path ∈ j.1.inputs := hpaths ▸ mem_map_of_mem hta
        have hne : t.path ≠ out.path := fun heq => hinputs j hj (heq ▸ hin)
        exact merged_gone hspan hl0 hlevels h.paths_nodup hti hne (hpresent' _ hin)
      obtain ⟨newer', before', behind', hspan'⟩ := hspanA.of_merge hspan hm hdisj
      rw [← hl0, ← hlevels] at hspan'
      exact ⟨a0, a1, newer', before', behind', hspan', hpaths, hbuilt⟩

end

theorem Compacting.shrink {fj' : FlushJobs} {cj' : CompactJobs} (h : Compacting e fj cj j)
    (hf : ∀ p ∈ fj'.map (fun j => j.1.path), p ∈ fj.map (fun j => j.1.path))
    (hc : ∀ p ∈ cj'.map (fun j => j.1.output), p ∈ cj.map (fun j => j.1.output)) : Compacting e fj' cj' j := by
  refine ⟨h.no_expiry, ?_, h.output_path, h.span⟩
  intro p hp
  obtain ⟨hlt, hpf, hpc⟩ := h.inputs_old p hp
  exact ⟨hlt, fun hmem => hpf (hf p hmem), fun hmem => hpc (hc p hmem)⟩

theorem WellFormed.dropCompact {cj' : CompactJobs}
    (h : WellFormed e d fj cj) (hsub : cj'.Sublist cj) : WellFormed e d fj cj' := by
  have hres : (reserved e fj cj').Sublist (reserved e fj cj) :=
    Sublist.append_left (hsub.map _) _
  refine ⟨h.ttl, h.nodup.sublist hres, fun p hp => h.below p (hres.subset hp), h.on_disk,
    h.flush_built, fun j hj => h.compact_built j (hsub.subset hj), h.seqs, h.seqs_below,
    h.flushing, ?_⟩
  intro j hj
  exact (h.compacting j (hsub.subset hj)).shrink (fun p hp => hp) (fun p hp => (hsub.map _).subset hp)

variable {job : FlushJob}

theorem WellFormed.flush_layer {sst : SsTable} {m : Memtable} (h : WellFormed e d [(job, some sst)] cj)
    (hmem : job.mem = m) : sst.layer = m.layer := by
  obtain ⟨hsst, -⟩ := h.flush_built (job, some sst) (by simp) sst rfl
  funext key
  rw [hsst, ← hmem]
  exact job.mem.lookup_iterLatest_eq_getEntryVersioned key

theorem WellFormed.push {sst : SsTable} (h : WellFormed e d [(job, some sst)] cj)
    (hfrozen : e.frozen = f :: rest) (httl : e'.ttlMs = e.ttlMs) (hl0 : e'.l0 = sst :: e.l0)
    (hlevels : e'.levels = e.levels) (hfrozen' : e'.frozen = rest) (hwal : e'.nextWalSeq = e.nextWalSeq)
    (hseq : e'.nextSeq = e.nextSeq) (hdisk : d'.tables = d.tables) : WellFormed e' d' [] cj := by
  obtain ⟨hsst, hget⟩ := h.flush_built (job, some sst) (by simp) sst rfl
  have hpath : sst.path = job.path := by rw [hsst]; rfl
  have hpaths : e'.paths = sst.path :: e.paths := by
    simp [paths, sstablesNewestFirst, hl0, hlevels]
  have hres : (reserved e' [] cj).Perm (reserved e [(job, some sst)] cj) := by
    unfold reserved
    rw [hpaths, hpath]
    refine Perm.append_right _ ?_
    simp only [map_nil, append_nil, map_cons]
    exact (perm_append_singleton _ _).symm
  have hflushing : ∀ g ∈ rest, g.building = false := by
    obtain ⟨f', rest', hf', -, -, hrest⟩ := h.flushing.job
    obtain ⟨-, rfl⟩ := List.cons.inj (hfrozen.symm.trans hf')
    exact hrest
  have hseqs := h.seqs
  rw [hfrozen, map_cons, pairwise_cons] at hseqs
  refine ⟨httl ▸ h.ttl, hres.nodup_iff.mpr h.nodup, ?_, ?_, by simp, ?_, hfrozen' ▸ hseqs.2, ?_,
    .inl ⟨rfl, hfrozen' ▸ hflushing⟩, ?_⟩
  · intro p hp
    rw [hseq]
    exact h.below p (hres.mem_iff.mp hp)
  · intro t ht
    rw [hdisk]
    obtain rfl | ht : t = sst ∨ t ∈ e.sstablesNewestFirst := by
      simpa [sstablesNewestFirst, hl0, hlevels] using ht
    · exact hget
    · exact h.on_disk t ht
  · intro j hj run hrun
    rw [hdisk]
    exact h.compact_built j hj run hrun
  · intro g hg
    rw [hwal]
    exact h.seqs_below g (by rw [hfrozen]; simp [hfrozen' ▸ hg])
  · intro j hj
    have hc := h.compacting j hj
    refine ⟨hc.no_expiry, ?_, hc.output_path, ?_⟩
    · intro p hp
      obtain ⟨hlt, -, ho⟩ := hc.inputs_old p hp
      exact ⟨hseq ▸ hlt, by simp, ho⟩
    · intro hpresent
      have hbefore : e.inputsPresent j.1.inputs = true := by
        rw [inputsPresent_iff] at hpresent ⊢
        intro p hp
        have hmem := hpresent p hp
        rw [hpaths] at hmem
        obtain heq | hmem := mem_cons.mp hmem
        · -- The flushed table's number was never an input.
          have hnot := (hc.inputs_old p hp).2.1
          rw [heq, hpath] at hnot
          exact absurd (by simp) hnot
        · exact hmem
      obtain ⟨i0, i1, newer, before, behind, hspan, hrest⟩ := hc.span hbefore
      rw [hl0, hlevels]
      exact ⟨i0, i1, sst :: newer, before, behind, hspan.push sst, hrest⟩

theorem WellFormed.freeze (h : WellFormed e d fj cj) (httl : e'.ttlMs = e.ttlMs) (hl0 : e'.l0 = e.l0)
    (hlevels : e'.levels = e.levels) (hfrozen : e'.frozen = e.frozen ++ [⟨m, e.nextWalSeq, hlc, false⟩])
    (hwal : e'.nextWalSeq = e.nextWalSeq + 1) (hseq : e'.nextSeq = e.nextSeq) (hdisk : d'.tables = d.tables) :
    WellFormed e' d' fj cj := by
  have hframe : WellFormed { e' with frozen := e.frozen, nextWalSeq := e.nextWalSeq } d' fj cj :=
    h.frame httl hl0 hlevels rfl rfl hseq.ge (fun p entries hp _ => by rw [hdisk]; exact hp)
  refine ⟨hframe.ttl, hframe.nodup, hframe.below, hframe.on_disk, hframe.flush_built,
    hframe.compact_built, ?_, ?_, ?_, ?_⟩
  · rw [hfrozen, map_append, pairwise_append]
    refine ⟨h.seqs, by simp, ?_⟩
    intro a ha b hb
    obtain ⟨f, hf, rfl⟩ := mem_map.mp ha
    obtain rfl : b = e.nextWalSeq := by simpa using hb
    exact h.seqs_below f hf
  · intro f hf
    rw [hfrozen] at hf
    rw [hwal]
    obtain hf | hf := mem_append.mp hf
    · have := h.seqs_below f hf
      omega
    · obtain rfl := mem_singleton.mp hf
      exact Nat.lt_succ_self _
  · rw [hfrozen]
    obtain ⟨hfj, hb⟩ | ⟨job, built, f, rest, hfj, hf, hfb, hjm, hjs, hrest⟩ := h.flushing
    · refine .inl ⟨hfj, ?_⟩
      intro g hg
      obtain hg | hg := mem_append.mp hg
      · exact hb g hg
      · obtain rfl := mem_singleton.mp hg
        rfl
    · refine .inr ⟨job, built, f, rest ++ [⟨m, e.nextWalSeq, hlc, false⟩], hfj, by rw [hf]; rfl, hfb,
        hjm, hjs, ?_⟩
      intro g hg
      obtain hg | hg := mem_append.mp hg
      · exact hrest g hg
      · obtain rfl := mem_singleton.mp hg
        rfl
  · intro j hj
    have hc := hframe.compacting j hj
    exact { hc with }

theorem Flushing.takeFlushJob (h : Flushing e.frozen fj) (htake : e.takeFlushJob = some (job, e')) :
    fj = [] ∧ ∃ f rest, e.frozen = f :: rest ∧ job = ⟨f.mem, e.nextSeq, f.walSeq⟩ ∧
      e' = { e with nextSeq := e.nextSeq + 1, frozen := { f with building := true } :: rest } := by
  unfold Engine.takeFlushJob at htake
  split_ifs at htake with heph
  cases hfrozen : e.frozen with
  | nil =>
    rw [hfrozen] at htake
    cases htake
  | cons f rest =>
    rw [hfrozen] at htake
    by_cases hb : f.building = true
    · simp [hb] at htake
    · obtain ⟨hjob, he⟩ : job = ⟨f.mem, e.nextSeq, f.walSeq⟩ ∧
          e' = { e with nextSeq := e.nextSeq + 1, frozen := { f with building := true } :: rest } := by
        simp only [nextTablePath, hb, Bool.false_eq_true, if_false, Option.some.injEq,
          Prod.mk.injEq] at htake
        exact ⟨htake.1.symm, htake.2.symm⟩
      refine ⟨?_, f, rest, rfl, hjob, he⟩
      obtain ⟨hfj, -⟩ | ⟨job', built, f', rest', -, hf', hfb, -⟩ := h
      · exact hfj
      · rw [hfrozen] at hf'
        obtain ⟨rfl, -⟩ := List.cons.inj hf'
        exact absurd hfb hb

-- A job that is taken reserves the next number.
theorem WellFormed.reserve (h : WellFormed e d fj cj) (hres : List.Perm taken (e.nextSeq :: reserved e fj cj)) :
    taken.Nodup ∧ ∀ p ∈ taken, p < e.nextSeq + 1 := by
  refine ⟨hres.nodup_iff.mpr (nodup_cons.mpr ⟨fun hmem => lt_irrefl _ (h.below _ hmem), h.nodup⟩), ?_⟩
  intro p hp
  obtain rfl | hp := mem_cons.mp (hres.mem_iff.mp hp)
  · exact Nat.lt_succ_self _
  · exact (h.below p hp).trans (Nat.lt_succ_self _)

theorem WellFormed.takeFlush (h : WellFormed e d fj cj) (htake : e.takeFlushJob = some (job, e')) :
    WellFormed e' d [(job, none)] cj := by
  obtain ⟨rfl, f, rest, hfrozen, rfl, rfl⟩ := h.flushing.takeFlushJob htake
  have hres : (reserved e [(⟨f.mem, e.nextSeq, f.walSeq⟩, none)] cj).Perm
      (e.nextSeq :: reserved e [] cj) := by
    unfold reserved
    simp only [map_cons, map_nil, append_nil]
    exact (perm_append_singleton _ _).append_right _
  obtain ⟨hnodup, hbelow⟩ := h.reserve hres
  refine ⟨h.ttl, hnodup, hbelow, h.on_disk, by simp, h.compact_built, ?_, ?_, ?_, ?_⟩
  · have hseqs := h.seqs
    rw [hfrozen] at hseqs
    exact hseqs
  · intro g hg
    have hbelow := h.seqs_below
    rw [hfrozen] at hbelow
    obtain rfl | hg := mem_cons.mp hg
    · exact hbelow f (by simp)
    · exact hbelow g (by simp [hg])
  · obtain ⟨-, hb⟩ | ⟨job', built, f', rest', hcons, -⟩ := h.flushing
    · refine .inr ⟨_, _, _, _, rfl, rfl, rfl, rfl, rfl, ?_⟩
      intro g hg
      exact hb g (by rw [hfrozen]; simp [hg])
    · cases hcons
  · intro j hj
    have hc := h.compacting j hj
    refine ⟨hc.no_expiry, ?_, hc.output_path, hc.span⟩
    intro p hp
    obtain ⟨hlt, -, ho⟩ := hc.inputs_old p hp
    refine ⟨hlt.trans (Nat.lt_succ_self _), ?_, ho⟩
    simpa using hlt.ne

theorem WellFormed.buildFlush (h : WellFormed e d [(job, built)] cj)
    (hdisk : d'.tables = d.tables.insert job.path (buildFlush job).entries) :
    WellFormed e d' [(job, some (buildFlush job))] cj := by
  have hnot : job.path ∉ e.paths ∧ job.path ∉ cj.map (fun j => j.1.output) := by
    have hn := h.nodup
    simp only [reserved, map_cons, map_nil, nodup_append, mem_append,
      mem_singleton] at hn
    grind
  have hget : ∀ p entries, d.tables.get? p = some entries → p ≠ job.path →
      d'.tables.get? p = some entries := by
    intro p entries hp hne
    rw [hdisk, OrdMap.get?_insert, if_neg hne]
    exact hp
  refine ⟨h.ttl, h.nodup, h.below, ?_, ?_, ?_, h.seqs, h.seqs_below, ?_, ?_⟩
  · intro t ht
    refine hget _ _ (h.on_disk t ht) ?_
    intro heq
    exact hnot.1 (heq ▸ mem_map_of_mem ht)
  · intro j hj sst hsst
    obtain rfl := mem_singleton.mp hj
    obtain rfl := Option.some.inj hsst
    refine ⟨rfl, ?_⟩
    rw [hdisk, OrdMap.get?_insert]
    exact if_pos rfl
  · intro j hj run hrun
    refine hget _ _ (h.compact_built j hj run hrun) ?_
    intro heq
    rw [(h.compacting j hj).output_path run hrun] at heq
    exact hnot.2 (heq ▸ mem_map_of_mem hj)
  · obtain ⟨hcons, -⟩ | ⟨job', built', f, rest, hcons, hrest⟩ := h.flushing
    · cases hcons
    · cases hcons
      exact .inr ⟨_, _, f, rest, rfl, hrest⟩
  · intro j hj
    exact (h.compacting j hj).shrink (fun p hp => hp) (fun p hp => hp)

theorem WellFormed.abortFlush {f : FrozenMem} (h : WellFormed e d [(job, built)] cj)
    (hfrozen : e.frozen = f :: rest) (he : e' = { e with frozen := { f with building := false } :: rest })
    (hdisk : d'.tables = d.tables.erase job.path) : WellFormed e' d' [] cj := by
  subst he
  have hres : (reserved e [] cj).Sublist (reserved e [(job, built)] cj) := by
    refine Sublist.append_right ?_ _
    simp
  have hnot : job.path ∉ reserved e [] cj := by
    have hn := h.nodup
    simp only [reserved, map_cons, map_nil, append_nil, nodup_append,
      mem_append, mem_singleton] at hn ⊢
    grind
  have hget : ∀ p entries, d.tables.get? p = some entries → p ∈ reserved e [] cj →
      d'.tables.get? p = some entries := by
    intro p entries hp hmem
    have hne : p ≠ job.path := fun heq => hnot (heq ▸ hmem)
    rw [hdisk, OrdMap.get?_erase, if_neg hne]
    exact hp
  refine ⟨h.ttl, h.nodup.sublist hres, fun p hp => h.below p (hres.subset hp), ?_, by simp, ?_,
    ?_, ?_, .inl ⟨rfl, ?_⟩, ?_⟩
  · intro t ht
    refine hget _ _ (h.on_disk t ht) ?_
    simp only [reserved, paths, mem_append, mem_map]
    exact .inl (.inl ⟨t, ht, rfl⟩)
  · intro j hj run hrun
    refine hget _ _ (h.compact_built j hj run hrun) ?_
    simp only [reserved, mem_append, mem_map]
    exact .inr ⟨j, hj, ((h.compacting j hj).output_path run hrun).symm⟩
  · have hseqs := h.seqs
    rw [hfrozen] at hseqs
    exact hseqs
  · have hbelow := h.seqs_below
    rw [hfrozen] at hbelow
    intro g hg
    obtain rfl | hg := mem_cons.mp hg
    · exact hbelow f (by simp)
    · exact hbelow g (by simp [hg])
  · obtain ⟨f', rest', hf', -, -, hrest⟩ := h.flushing.job
    obtain ⟨-, rfl⟩ := List.cons.inj (hfrozen.symm.trans hf')
    intro g hg
    obtain rfl | hg := mem_cons.mp hg
    · rfl
    · exact hrest g hg
  · intro j hj
    have hc : Compacting e [] cj j := (h.compacting j hj).shrink (by simp) (fun p hp => hp)
    exact { hc with }

theorem Engine.takeCompactJob_spec {now : UInt64} {job : CompactJob}
    (htake : e.takeCompactJob now = some (job, e')) :
    e' = { e with nextSeq := e.nextSeq + 1 } ∧ job.output = e.nextSeq ∧
    job.expireBefore = e.ttlMs.map (fun ttl => now.toNat - ttl) ∧
    ∃ i0 i1 newer before behind, Span e.l0 e.levels job.deepest i0 i1 newer before behind ∧
      (i0 ++ i1).map SsTable.path = job.inputs := by
  unfold takeCompactJob nextTablePath at htake
  split_ifs at htake with heph htrigger
  · obtain ⟨rfl, rfl⟩ := Prod.mk.inj (Option.some.inj htake)
    refine ⟨rfl, rfl, rfl, e.l0, e.levels.take 1, [], [], e.levels.drop 1, ?_, rfl⟩
    refine ⟨by simp, (take_append_drop 1 e.levels).symm, by simp, ?_⟩
    intro hdeep
    left
    have hlen : e.levels.length ≤ 1 := by simpa using hdeep
    rw [drop_eq_nil_of_le hlen]
    simp
  · cases hlevel : e.cascadeLevel with
    | none =>
      rw [hlevel] at htake
      cases htake
    | some level =>
      rw [hlevel] at htake
      obtain ⟨rfl, rfl⟩ := Prod.mk.inj (Option.some.inj htake)
      refine ⟨rfl, rfl, rfl, [], (e.levels.drop level).take 2, e.l0, e.levels.take level,
        e.levels.drop (level + 2), ?_, rfl⟩
      refine ⟨by simp, ?_, by simp, ?_⟩
      · rw [append_assoc, ← drop_drop, take_append_drop, take_append_drop]
      · intro hdeep
        left
        have hlen : level + 1 = e.levels.length - 1 := by simpa using hdeep
        rw [drop_eq_nil_of_le (by omega)]
        simp

theorem Span.mem_tables {l0 levels : List SsTable} (h : Span l0 levels deepest i0 i1 newer before behind)
    (ht : t ∈ i0 ++ i1) : t ∈ l0 ++ levels := by
  rw [h.l0_eq, h.levels_eq]
  simp only [mem_append] at ht ⊢
  tauto

theorem WellFormed.takeCompact {job : CompactJob} {now : UInt64} (h : WellFormed e d fj cj)
    (htake : e.takeCompactJob now = some (job, e')) : WellFormed e' d fj (cj ++ [(job, none)]) := by
  obtain ⟨rfl, hout, hexp, i0, i1, newer, before, behind, hspan, hpaths⟩ :=
    takeCompactJob_spec htake
  have hres : (reserved e fj (cj ++ [(job, none)])).Perm (e.nextSeq :: reserved e fj cj) := by
    unfold reserved
    rw [map_append, ← append_assoc, map_cons, map_nil, hout]
    exact perm_append_singleton _ _
  have hnext : ∀ j : CompactJob × Option SsTable, Compacting e fj cj j →
      Compacting { e with nextSeq := e.nextSeq + 1 } fj (cj ++ [(job, none)]) j := by
    intro j hc
    refine ⟨hc.no_expiry, ?_, hc.output_path, hc.span⟩
    intro p hp
    obtain ⟨hlt, hf, ho⟩ := hc.inputs_old p hp
    refine ⟨hlt.trans (Nat.lt_succ_self _), hf, ?_⟩
    simp only [map_append, mem_append, map_cons, map_nil, mem_singleton,
      hout]
    exact not_or.mpr ⟨ho, hlt.ne⟩
  obtain ⟨hnodup, hbelow⟩ := h.reserve hres
  refine ⟨h.ttl, hnodup, hbelow, h.on_disk, h.flush_built, ?_, h.seqs, h.seqs_below, h.flushing, ?_⟩
  · intro j hj run hrun
    obtain hj | hj := mem_append.mp hj
    · exact h.compact_built j hj run hrun
    · obtain rfl := mem_singleton.mp hj
      cases hrun
  · intro j hj
    obtain hj | hj := mem_append.mp hj
    · exact hnext j (h.compacting j hj)
    · obtain rfl := mem_singleton.mp hj
      apply hnext
      refine ⟨by rw [hexp, h.ttl]; rfl, ?_, by simp, ?_⟩
      · intro p hp
        rw [← hpaths] at hp
        obtain ⟨t, ht, rfl⟩ := mem_map.mp hp
        have hmem : t.path ∈ e.paths := mem_map_of_mem (hspan.mem_tables ht)
        have hn := h.nodup
        simp only [reserved, nodup_append, mem_append] at hn
        refine ⟨h.below _ (by simp [reserved, hmem]), ?_, ?_⟩
        · exact fun hf => hn.1.2.2 _ hmem _ hf rfl
        · exact fun ho => hn.2.2 _ (.inl hmem) _ ho rfl
      · intro _
        exact ⟨i0, i1, newer, before, behind, hspan, hpaths, by simp⟩

end Skaidb.Storage
