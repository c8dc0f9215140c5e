import Skaidb.Tsdb.Contents

namespace Skaidb.Tsdb

open Skaidb.Base List OrdMap Sample Block SealedChunk

section Bounds

variable {α β : Type} [LinearOrder β]

private theorem foldl_min_spec (f : α → β) (xs : List α) (t : β) :
    (xs.foldl (fun t x => min t (f x)) t ≤ t ∧ ∀ x ∈ xs, xs.foldl (fun t x => min t (f x)) t ≤ f x) ∧
      (xs.foldl (fun t x => min t (f x)) t = t ∨ ∃ x ∈ xs, f x = xs.foldl (fun t x => min t (f x)) t) := by
  induction xs generalizing t with
  | nil => simp
  | cons x xs ih =>
    obtain ⟨⟨hle, hall⟩, hcases⟩ := ih (min t (f x))
    refine ⟨⟨hle.trans (min_le_left _ _), forall_mem_cons.mpr ⟨hle.trans (min_le_right _ _), hall⟩⟩, ?_⟩
    obtain heq | ⟨y, hy, heq⟩ := hcases
    · obtain hmin | hmin := min_choice t (f x)
      · exact .inl (heq.trans hmin)
      · exact .inr ⟨x, mem_cons_self, (heq.trans hmin).symm⟩
    · exact .inr ⟨y, mem_cons_of_mem _ hy, heq⟩

private theorem exists_foldl_min {f : α → β} {xs : List α} (hne : xs ≠ []) (ht : ∀ b : β, b ≤ t) :
    ∃ x ∈ xs, f x = xs.foldl (fun t x => min t (f x)) t := by
  obtain ⟨⟨-, hall⟩, heq | hex⟩ := foldl_min_spec f xs t
  · obtain ⟨x, hx⟩ := exists_mem_of_ne_nil _ hne
    exact ⟨x, hx, le_antisymm ((ht _).trans heq.ge) (hall x hx)⟩
  · exact hex

end Bounds

section Writing

structure SeriesSound (series : FlushedSeries) : Prop where
  chunks : ∀ s ∈ series, ∀ c ∈ s.2, c.Sound
  labels : (series.map Prod.fst).Nodup

variable {seq level : Nat} {series : FlushedSeries}

theorem mem_under_seriesPieces : x ∈ under (seriesPieces series) labels ↔
      ∃ s ∈ series, s.1 = labels ∧ ∃ c ∈ s.2, x ∈ c.data := by
  rw [mem_under]
  simp [seriesPieces]

theorem mem_writeBlock : s ∈ (writeBlock seq level series).series ↔ s ∈ series := mem_sortByKey

theorem sound_writeBlock (h : SeriesSound series) {labels : Labels}
    (hx : x ∈ under (seriesPieces series) labels) : (writeBlock seq level series).Sound := by
  have hne : series.flatMap Prod.snd ≠ [] := by
    obtain ⟨s, hs, -, c, hc, -⟩ := mem_under_seriesPieces.mp hx
    exact ne_nil_of_mem (mem_flatMap.mpr ⟨s, hs, hc⟩)
  have hmem : ∀ {c}, c ∈ series.flatMap Prod.snd ↔
      ∃ s ∈ (writeBlock seq level series).series, c ∈ s.2 := by
    intro c
    rw [mem_flatMap]
    exact exists_congr fun s => and_congr_left fun _ => mem_writeBlock.symm
  have hmin := (foldl_min_spec SealedChunk.minTs (series.flatMap Prod.snd) Int64.maxValue).1.2
  have hmax := (foldl_min_spec (β := Int64ᵒᵈ) SealedChunk.maxTs (series.flatMap Prod.snd) Int64.minValue).1.2
  refine ⟨fun s hs => h.chunks s (mem_writeBlock.mp hs), ?_, fun s hs c hc => hmin c (hmem.mpr ⟨s, hs, hc⟩), ?_,
    fun s hs c hc => hmax c (hmem.mpr ⟨s, hs, hc⟩), ?_⟩
  · have hperm := (perm_insertionSort (fun a b => a.1 ≤ b.1) series).map Prod.fst
    exact hperm.nodup_iff.mpr h.labels
  · obtain ⟨c, hc, heq⟩ := exists_foldl_min hne Int64.le_maxValue
    obtain ⟨s, hs, hc⟩ := hmem.mp hc
    exact ⟨s, hs, c, hc, heq⟩
  · obtain ⟨c, hc, heq⟩ := exists_foldl_min (β := Int64ᵒᵈ) hne Int64.minValue_le
    obtain ⟨s, hs, hc⟩ := hmem.mp hc
    exact ⟨s, hs, c, hc, heq⟩

theorem under_writeBlock :
    under (writeBlock seq level series).pieces labels = under (seriesPieces series) labels := by
  have hfilter := @filter_sortByKey _ _ _ Prod.fst series labels
  simp only [under, pieces, seriesPieces, writeBlock, filter_map, flatMap_map]
  exact congrArg (fun l => List.flatMap _ l) hfilter

end Writing

section Merging

variable {labels : Labels} {chunks : List SealedChunk} {series : FlushedSeries}

theorem mem_addSeries_fst :
    l ∈ (addSeries labels chunks series).map Prod.fst ↔ l = labels ∨ l ∈ series.map Prod.fst := by
  induction series with
  | nil => simp [addSeries]
  | cons s series ih =>
    rw [addSeries]
    split_ifs with heq
    · simp only [map_cons, mem_cons, heq]
      tauto
    · rw [map_cons, mem_cons, ih, map_cons, mem_cons]
      tauto

theorem under_addSeries (hlabels : (series.map Prod.fst).Nodup) :
    under (seriesPieces (addSeries labels chunks series)) l =
      under (seriesPieces series) l ++ if labels = l then chunks.flatMap data else [] := by
  induction series with
  | nil => by_cases heq : labels = l <;> simp [addSeries, seriesPieces, under, heq]
  | cons s series ih =>
    obtain ⟨hs, hlabels⟩ := nodup_cons.mp hlabels
    have hcons : ∀ s rest,
        under (seriesPieces (s :: rest)) l =
          (if s.1 = l then s.2.flatMap data else []) ++ under (seriesPieces rest) l := by
      intro s rest
      by_cases heq : s.1 = l <;> simp [seriesPieces, under, heq]
    rw [addSeries]
    by_cases heq : s.1 = labels
    · rw [if_pos heq, hcons, hcons]
      by_cases hl : s.1 = l
      · have hnil : under (seriesPieces series) l = [] := by
          refine under_eq_nil ?_
          rwa [seriesPieces, map_map, ← hl]
        simp [hl, hnil, ← heq]
      · simp [hl, ← heq]
    · rw [if_neg heq, hcons, hcons, ih hlabels, append_assoc]

theorem SeriesSound.addSeries (h : SeriesSound series) (hchunks : ∀ c ∈ chunks, c.Sound) :
    SeriesSound (addSeries labels chunks series) := by
  induction series with
  | nil => exact ⟨by simpa [Tsdb.addSeries] using hchunks, nodup_singleton _⟩
  | cons s series ih =>
    obtain ⟨hs, hseries⟩ := forall_mem_cons.mp h.chunks
    obtain ⟨hnot, hlabels⟩ := nodup_cons.mp h.labels
    rw [Tsdb.addSeries]
    split_ifs with heq
    · refine ⟨forall_mem_cons.mpr ⟨fun c hc => ?_, hseries⟩, h.labels⟩
      obtain hc | hc := mem_append.mp hc
      · exact hs c hc
      · exact hchunks c hc
    · obtain ⟨hrest, hrestLabels⟩ := ih ⟨hseries, hlabels⟩
      refine ⟨forall_mem_cons.mpr ⟨hs, hrest⟩, nodup_cons.mpr ⟨fun hmem => ?_, hrestLabels⟩⟩
      obtain hmem | hmem := mem_addSeries_fst.mp hmem
      · exact heq hmem
      · exact hnot hmem

theorem concatSeries_spec {inputs : List Block} (h : ∀ b ∈ inputs, b.Sound) :
    SeriesSound (concatSeries inputs) ∧
      ∀ l, under (seriesPieces (concatSeries inputs)) l = under (inputs.flatMap pieces) l := by
  have hfold : ∀ (more merged), (∀ s ∈ more, ∀ c ∈ s.2, c.Sound) → SeriesSound merged →
      SeriesSound (more.foldl (fun merged s => addSeries s.1 s.2 merged) merged) ∧
        ∀ l, under (seriesPieces (more.foldl (fun merged s => addSeries s.1 s.2 merged) merged)) l =
          under (seriesPieces merged) l ++ under (seriesPieces more) l := by
    intro more
    induction more with
    | nil => exact fun merged _ hmerged => ⟨hmerged, fun l => (append_nil _).symm⟩
    | cons s more ih =>
      intro merged hmore hmerged
      obtain ⟨hs, hmore⟩ := forall_mem_cons.mp hmore
      obtain ⟨hsound, hunder⟩ := ih _ hmore (hmerged.addSeries hs)
      refine ⟨hsound, fun l => ?_⟩
      rw [foldl_cons, hunder, under_addSeries hmerged.labels, append_assoc]
      by_cases heq : s.1 = l <;> simp [seriesPieces, under, heq]
  have hchunks : ∀ s ∈ inputs.flatMap series, ∀ c ∈ s.2, c.Sound := by
    intro s hs
    obtain ⟨b, hb, hs⟩ := mem_flatMap.mp hs
    exact (h b hb).chunks s hs
  obtain ⟨hsound, hunder⟩ := hfold (inputs.flatMap series) [] hchunks ⟨by simp, nodup_nil⟩
  refine ⟨hsound, fun l => ?_⟩
  have hpieces : seriesPieces (inputs.flatMap series) = inputs.flatMap pieces := map_flatMap
  rw [concatSeries, hunder, hpieces]
  rfl

def refolded (chunks : List SealedChunk) : List SealedChunk :=
  match refold chunks with
  | .ok folded => folded
  | .error _ => []

theorem refold_spec (h : ∀ c ∈ chunks, c.Sound) :
    refold chunks = .ok (refolded chunks) ∧ (∀ c ∈ refolded chunks, c.Sound) ∧
      (∀ ts, lastHeld Sample.ts ((refolded chunks).flatMap SealedChunk.data) ts =
        lastHeld Sample.ts (chunks.flatMap SealedChunk.data) ts) ∧
      (refolded chunks).flatMap SealedChunk.data ⊆ chunks.flatMap SealedChunk.data := by
  by_cases hover : overlaps chunks
  · have hasc : Ascending (settle ts (chunks.flatMap data)) := settle_sorted
    obtain ⟨folded, hfolded⟩ := rechunk_ok Int64.maxValue hasc
    obtain ⟨hdata, hsound⟩ := rechunk_spec hfolded
    have hrefold : refold chunks = .ok folded := (if_pos hover).trans hfolded
    rw [refolded, hrefold]
    refine ⟨rfl, hsound, fun ts => by rw [hdata, lastHeld_settle], fun x hx => ?_⟩
    rw [hdata] at hx
    exact (mem_of_lastHeld (mem_settle.mp hx)).1
  · have hrefold : refold chunks = .ok chunks := if_neg hover
    rw [refolded, hrefold]
    exact ⟨rfl, h, fun ts => rfl, Subset.refl _⟩

-- A merge cannot fail, and the block holds for each series and time what its inputs hold.
theorem mergeBlocks_spec {inputs : List Block} (seq : Nat) (h : ∀ b ∈ inputs, b.Sound) (hne : inputs ≠ []) :
    ∃ b, mergeBlocks seq inputs = .ok b ∧ b.Sound ∧ b.seq = seq ∧
      (∀ labels ts, held b.pieces labels ts = held (inputs.flatMap Block.pieces) labels ts) ∧
      ∀ labels, OrdMap.under b.pieces labels ⊆ OrdMap.under (inputs.flatMap Block.pieces) labels := by
  obtain ⟨hsound, hunder⟩ := concatSeries_spec h
  have hmap : (concatSeries inputs).mapM (fun s => do return (s.1, ← refold s.2)) =
      .ok ((concatSeries inputs).map (fun s => (s.1, refolded s.2))) := by
    refine mapM_eq_ok_map fun s hs => ?_
    rw [(refold_spec (hsound.chunks s hs)).1]
    rfl
  set merged := (concatSeries inputs).map (fun s => (s.1, refolded s.2)) with hmerged
  have hmergedSound : SeriesSound merged := by
    constructor
    · rintro s hs c hc
      obtain ⟨s', hs', rfl⟩ := mem_map.mp hs
      exact (refold_spec (hsound.chunks s' hs')).2.1 c hc
    · rw [hmerged, map_map]
      exact hsound.labels
  have hheld : ∀ labels ts, held (seriesPieces merged) labels ts = held (inputs.flatMap pieces) labels ts := by
    intro labels ts
    rw [held, held, ← hunder]
    simp only [under, seriesPieces, hmerged, filter_map, map_map, flatMap_map]
    refine lastHeld_flatMap_congr fun s hs => ?_
    exact (refold_spec (hsound.chunks s (mem_of_mem_filter hs))).2.2.1 ts
  have hsub : ∀ labels, under (seriesPieces merged) labels ⊆ under (inputs.flatMap pieces) labels := by
    intro labels x hx
    rw [← hunder]
    obtain ⟨s, hs, hlabels, c, hc, hx⟩ := mem_under_seriesPieces.mp hx
    obtain ⟨s', hs', rfl⟩ := mem_map.mp hs
    have hin := (refold_spec (hsound.chunks s' hs')).2.2.2 (mem_flatMap.mpr ⟨c, hc, hx⟩)
    obtain ⟨c', hc', hx'⟩ := mem_flatMap.mp hin
    exact mem_under_seriesPieces.mpr ⟨s', hs', hlabels, c', hc', hx'⟩
  refine ⟨_, by rw [mergeBlocks, hmap]; rfl, ?_, rfl, fun labels ts => ?_, fun labels => ?_⟩
  · -- The first input holds something.
    obtain ⟨b, hb⟩ := exists_mem_of_ne_nil _ hne
    obtain ⟨s, hs, c, hc, -⟩ := (h b hb).exists_minTs
    obtain ⟨x, hx⟩ := exists_mem_of_ne_nil _ ((h b hb).chunks s hs c hc).ne_nil
    have hin : x ∈ under (inputs.flatMap pieces) s.1 := by
      obtain ⟨piece, hpiece, hin⟩ := mem_under.mp (mem_under_seriesPieces.mpr ⟨s, hs, rfl, c, hc, hx⟩)
      exact mem_under.mpr ⟨piece, mem_flatMap.mpr ⟨b, hb, hpiece⟩, hin⟩
    obtain ⟨y, hy⟩ := exists_lastHeld ts hin
    have hy : held (seriesPieces merged) s.1 x.ts = some y := (hheld s.1 x.ts).trans hy
    exact sound_writeBlock hmergedSound (mem_of_lastHeld hy).1
  · rw [held, under_writeBlock]
    exact hheld labels ts
  · rw [under_writeBlock]
    exact hsub labels

end Merging

section Folding

def cut (span : Int64) (samples : List Sample) : List SealedChunk :=
  match rechunk samples span with
  | .ok chunks => chunks
  | .error _ => []

theorem cut_spec (span : Int64) {samples : List Sample} (h : Ascending samples) :
    rechunk samples span = .ok (cut span samples) ∧
      (cut span samples).flatMap data = samples ∧ ∀ c ∈ cut span samples, c.Sound := by
  obtain ⟨chunks, hchunks⟩ := rechunk_ok span h
  rw [cut, hchunks]
  exact ⟨rfl, rechunk_spec hchunks⟩

def recutSeries (span : Int64) (samples : List (Labels × Sample)) : FlushedSeries :=
  (OrdMap.gather (samples.map (fun s => (s.1, [s.2])))).entries.map
    (fun s => (s.1, cut span (settle Sample.ts s.2)))

variable {span : Int64} {samples : List (Labels × Sample)}

theorem sound_recutSeries (span : Int64) (samples : List (Labels × Sample)) :
    SeriesSound (recutSeries span samples) := by
  constructor
  · intro s hs c hc
    obtain ⟨s', -, rfl⟩ := mem_map.mp hs
    exact (cut_spec span settle_sorted).2.2 c hc
  · rw [recutSeries, map_map]
    exact nodup_keys _

theorem under_recutSeries {samples : List (Labels × Sample)} :
    under (seriesPieces (recutSeries span samples)) labels =
      settle ts (under (samples.map (fun s => (s.1, [s.2]))) labels) := by
  simp only [seriesPieces, recutSeries, map_map, Function.comp_def, (cut_spec span settle_sorted).2.1]
  exact under_map_gather rfl

theorem under_blockSamples {inputs : List Block} :
    under ((inputs.flatMap blockSamples).map (fun s => (s.1, [s.2]))) labels =
      under (inputs.flatMap pieces) labels := by
  have hspread : inputs.flatMap blockSamples =
      (inputs.flatMap pieces).flatMap (fun p => p.2.map (fun x => (p.1, x))) := by
    rw [flatMap_assoc]
    refine flatMap_congr fun b _ => ?_
    rw [pieces, seriesPieces, flatMap_map]
    rfl
  rw [under_map_singleton, hspread]
  exact filter_spread

theorem under_window {samples : List (Labels × Sample)} : under
        ((under (samples.map (fun s => (windowOf span s.2.ts, [s]))) window).map (fun s => (s.1, [s.2])))
        labels = (under (samples.map (fun s => (s.1, [s.2]))) labels).filter
        (fun x => windowOf span x.ts = window) := by
  rw [under_map_singleton, under_map_singleton, under_map_singleton, map_id',
    filter_map, filter_filter, filter_filter]
  refine congrArg (List.map Prod.snd) (filter_congr fun s _ => ?_)
  rw [Bool.and_comm, Function.comp_apply]

-- What a wide fold writes: for each window that the inputs touch one block with what they
-- hold of it.
structure FoldedInto (inputs : List Block) (span : Int64) (w : Int64 × FlushedSeries) : Prop where
  sound : SeriesSound w.2
  held : ∀ labels ts, held (seriesPieces w.2) labels ts =
    if windowOf span ts = w.1 then Tsdb.held (inputs.flatMap Block.pieces) labels ts else none
  subset : ∀ labels, OrdMap.under (seriesPieces w.2) labels ⊆ OrdMap.under (inputs.flatMap Block.pieces) labels
  exists_mem : ∃ labels x, x ∈ OrdMap.under (seriesPieces w.2) labels

theorem wideFoldCollect_spec {inputs : List Block} :
    ∃ windows, wideFoldCollect inputs span = .ok windows ∧ (windows.map Prod.fst).Nodup ∧
      (∀ w ∈ windows, FoldedInto inputs span w) ∧ ∀ labels, ∀ x ∈ under (inputs.flatMap pieces) labels,
        windowOf span x.ts ∈ windows.map Prod.fst := by
  set samples := inputs.flatMap blockSamples with hsamples
  set windows := gather (samples.map (fun s => (windowOf span s.2.ts, [s]))) with hwindows
  have hmap : wideFoldCollect inputs span = .ok (windows.entries.map (fun w => (w.1, recutSeries span w.2))) := by
    rw [wideFoldCollect]
    refine mapM_eq_ok_map fun w _ => ?_
    have hseries : (gather (w.2.map (fun s => (s.1, [s.2])))).entries.mapM
        (fun s => do return (s.1, ← rechunk (settle Sample.ts s.2) span) : _ → Result _) =
          .ok (recutSeries span w.2) := by
      refine mapM_eq_ok_map fun s _ => ?_
      rw [(cut_spec span settle_sorted).1]
      rfl
    simp only [hseries]
    rfl
  refine ⟨_, hmap, ?_, fun w hw => ?_, fun labels x hx => ?_⟩
  · rw [map_map]
    exact windows.nodup_keys
  · obtain ⟨⟨window, xs⟩, hmem, rfl⟩ := mem_map.mp hw
    obtain ⟨hkey, rfl⟩ := mem_gather.mp hmem
    have hunder : ∀ labels, under (seriesPieces (recutSeries span
        (under (samples.map (fun s => (windowOf span s.2.ts, [s]))) window))) labels =
          settle Sample.ts ((under (inputs.flatMap Block.pieces) labels).filter
            (fun x => windowOf span x.ts = window)) := by
      intro labels
      rw [under_recutSeries, under_window, hsamples, under_blockSamples]
    refine ⟨sound_recutSeries _ _, fun labels ts => ?_, fun labels x hx => ?_, ?_⟩
    · rw [held, hunder, lastHeld_settle]
      have hfilter : lastHeld Sample.ts ((under (inputs.flatMap Block.pieces) labels).filter
          (fun x => decide (windowOf span x.ts = window))) ts = _ :=
        lastHeld_filter (fun t => decide (windowOf span t = window)) _ ts
      rw [hfilter]
      simp only [decide_eq_true_eq]
      rfl
    · rw [hunder] at hx
      exact mem_of_mem_filter (mem_of_lastHeld (mem_settle.mp hx)).1
    · obtain ⟨piece, hpiece, hwindow⟩ := mem_map.mp hkey
      obtain ⟨⟨labels, x⟩, hs, rfl⟩ := mem_map.mp hpiece
      have hin : x ∈ (under (inputs.flatMap Block.pieces) labels).filter
          (fun x => windowOf span x.ts = window) := by
        refine mem_filter.mpr ⟨?_, decide_eq_true hwindow⟩
        rw [← under_blockSamples]
        exact mem_under.mpr ⟨_, mem_map.mpr ⟨_, hs, rfl⟩, rfl, mem_singleton_self _⟩
      obtain ⟨y, hy⟩ := exists_lastHeld Sample.ts hin
      refine ⟨labels, y, ?_⟩
      rw [hunder]
      exact mem_settle.mpr ((mem_of_lastHeld hy).2.symm ▸ hy)
  · rw [← under_blockSamples] at hx
    obtain ⟨piece, hpiece, -, hpart⟩ := mem_under.mp hx
    obtain ⟨s, hs, rfl⟩ := mem_map.mp hpiece
    obtain rfl := mem_singleton.mp hpart
    have hkey : windowOf span s.2.ts ∈ (samples.map (fun s => (windowOf span s.2.ts, [s]))).map Prod.fst :=
      mem_map.mpr ⟨_, mem_map.mpr ⟨s, hs, rfl⟩, rfl⟩
    rw [map_map]
    exact mem_map.mpr ⟨_, mem_gather.mpr ⟨hkey, rfl⟩, rfl⟩

end Folding

section Repairing

-- The chunks of a repair's rows: of rows with one series and time the first counts.
def repairSeries (rows : List (Labels × Sample)) : Pieces :=
  (OrdMap.gather (rows.map (fun r => (r.1, [r.2])))).entries.map
    (fun e => (e.1, keepFirst Sample.ts none (sortByKey Sample.ts e.2)))

theorem repairSeries_spec (hne : rows ≠ []) (span : Int64) :
    ∃ chunks, (repairSeries rows).mapM (fun e => do return (e.1, ← rechunk e.2 span) : _ → Result _) = .ok chunks ∧
      SeriesSound chunks ∧ (∃ labels x, x ∈ under (seriesPieces chunks) labels) ∧
      ∀ labels, ∀ x ∈ under (seriesPieces chunks) labels, (labels, x) ∈ rows := by
  have hcut : ∀ e ∈ repairSeries rows, Ascending e.2 := by
    intro e he
    obtain ⟨e', -, rfl⟩ := mem_map.mp he
    exact (keepFirst_sorted sortByKey_sorted (by simp)).1
  have hunder : ∀ labels, under (seriesPieces ((repairSeries rows).map (fun e => (e.1, cut span e.2)))) labels =
      keepFirst ts none (sortByKey ts (under (rows.map (fun r => (r.1, [r.2]))) labels)) := by
    intro labels
    rw [← under_map_gather (f := fun xs => keepFirst ts none (sortByKey ts xs)) rfl, seriesPieces, map_map]
    refine congrArg (under · labels) ((map_congr_left fun e he => ?_).trans (map_id _))
    exact Prod.ext rfl (cut_spec span (hcut e he)).2.1
  refine ⟨(repairSeries rows).map (fun e => (e.1, cut span e.2)), ?_, ⟨?_, ?_⟩, ?_, ?_⟩
  · refine mapM_eq_ok_map fun e he => ?_
    rw [(cut_spec span (hcut e he)).1]
    rfl
  · intro s hs
    obtain ⟨e, he, rfl⟩ := mem_map.mp hs
    exact (cut_spec span (hcut e he)).2.2
  · rw [map_map, repairSeries, map_map]
    exact nodup_keys _
  · obtain ⟨r, hr⟩ := exists_mem_of_ne_nil _ hne
    have hin : r.2 ∈ under (rows.map (fun r => (r.1, [r.2]))) r.1 :=
      mem_under.mpr ⟨_, mem_map_of_mem hr, rfl, mem_singleton_self _⟩
    have hsome : sortByKey Sample.ts _ ≠ [] := ne_nil_of_mem (mem_sortByKey.mpr hin)
    obtain ⟨x, hx⟩ := exists_mem_of_ne_nil _ (@keepFirst_ne_nil _ _ _ Sample.ts _ hsome)
    exact ⟨r.1, x, hunder r.1 ▸ hx⟩
  · intro labels x hx
    rw [hunder] at hx
    have hx := mem_sortByKey.mp (keepFirst_subset none _ hx)
    obtain ⟨piece, hpiece, rfl, hpart⟩ := mem_under.mp hx
    obtain ⟨r, hr, rfl⟩ := mem_map.mp hpiece
    obtain rfl := mem_singleton.mp hpart
    exact hr

end Repairing

end Skaidb.Tsdb
