import Skaidb.Tsdb.Head.Index
import Skaidb.Tsdb.Store

namespace Skaidb.Tsdb

open Skaidb.Base List OrdMap Option Block SeriesEntry

section Candidates

variable {ι : Type}
variable {posting : Label → List ι} {postingRegex : String → (String → Bool) → List ι}
variable {matchers : List Matcher}

theorem mem_of_labelValue {labels : Labels} (h : labelValue labels key = value) (hne : value ≠ "") :
    ⟨key, value⟩ ∈ labels := by
  unfold labelValue at h
  cases hfind : labels.find? (fun l => l.key = key) with
  | none =>
    rw [hfind] at h
    exact absurd h.symm hne
  | some l =>
    rw [hfind] at h
    have hkey : l.key = key := by simpa using find?_some hfind
    have hmem := mem_of_find?_eq_some hfind
    obtain rfl : l.value = value := h
    exact hkey ▸ hmem

theorem smallestPosting_cases (best : Option (List ι)) (m : Matcher) : smallestPosting posting best m = best ∨
      ∃ k v, m = .eq k v ∧ v ≠ "" ∧ smallestPosting posting best m = some (posting ⟨k, v⟩) := by
  cases m with
  | eq k v =>
    by_cases hv : v = ""
    · exact .inl (if_pos hv)
    · cases best with
      | none => exact .inr ⟨k, v, rfl, hv, if_neg hv⟩
      | some ids =>
        by_cases hlt : (posting ⟨k, v⟩).length < ids.length
        · exact .inr ⟨k, v, rfl, hv, (if_neg hv).trans (if_pos hlt)⟩
        · exact .inl ((if_neg hv).trans (if_neg hlt))
  | ne | re | notRe => exact .inl rfl

theorem foldl_smallestPosting (h : matchers.foldl (smallestPosting posting) best = some ids) :
    best = some ids ∨ ∃ k v, .eq k v ∈ matchers ∧ v ≠ "" ∧ ids = posting ⟨k, v⟩ := by
  induction matchers generalizing best with
  | nil => exact .inl h
  | cons m matchers ih =>
    obtain hbest | ⟨k, v, hmem, hv⟩ := ih h
    · obtain hsame | ⟨k, v, rfl, hv, heq⟩ := @smallestPosting_cases _ posting best m
      · exact .inl (hsame ▸ hbest)
      · exact .inr ⟨k, v, mem_cons_self, hv, some.inj (hbest.symm.trans heq)⟩
    · exact .inr ⟨k, v, mem_cons_of_mem _ hmem, hv⟩

variable [LinearOrder ι]

-- The candidates hold every id whose labels satisfy the matchers, each once and in order.
theorem postingsCandidates_spec {carries : ι → Labels → Prop} {ids : List ι}
    (hposting : ∀ {i labels label}, carries i labels → label ∈ labels → i ∈ posting label)
    (hregex : ∀ {i labels k v r}, carries i labels → ⟨k, v⟩ ∈ labels → r v = true → i ∈ postingRegex k r)
    (h : postingsCandidates matchers posting postingRegex = some ids) :
    ids.Pairwise (· < ·) ∧ ∀ {i labels}, carries i labels → matchesAll matchers labels = true → i ∈ ids := by
  obtain ⟨found, hfound, rfl⟩ := map_eq_some_iff.mp h
  refine ⟨settle_sorted, fun {i labels} hi hall => ?_⟩
  have hmem : ∀ {i}, i ∈ found → i ∈ settle id found := by
    intro i hi
    obtain ⟨j, hj⟩ := exists_lastHeld id hi
    obtain rfl := (mem_of_lastHeld hj).2
    exact mem_settle.mpr hj
  have haccepts : ∀ m ∈ matchers, m.accepts labels = true := all_eq_true.mp hall
  apply hmem
  obtain hbest | ⟨-, hbyRegex⟩ := or_eq_some_iff.mp hfound
  · obtain hnone | ⟨k, v, hm, hv, rfl⟩ := foldl_smallestPosting hbest
    · cases hnone
    · exact hposting hi (mem_of_labelValue (by simpa [Matcher.accepts] using haccepts _ hm) hv)
  · obtain ⟨m, hm, hregexOf⟩ := exists_of_findSome?_eq_some hbyRegex
    cases m with
    | eq | ne | notRe => cases hregexOf
    | re k r =>
      simp only at hregexOf
      split_ifs at hregexOf with hempty
      obtain rfl := some.inj hregexOf
      have hr : r (labelValue labels k) = true := haccepts _ hm
      have hne : labelValue labels k ≠ "" := fun heq => hempty (heq ▸ hr)
      exact hregex hi (mem_of_labelValue rfl hne) hr

theorem mem_postingRegex {p : Postings} {r : String → Bool} (hi : i ∈ (p.get? ⟨k, v⟩).getD []) (hr : r v = true) :
    i ∈ (p.entries.filter (fun e => e.1.key = k ∧ r e.1.value)).flatMap Prod.snd := by
  cases hget : p.get? ⟨k, v⟩ with
  | none =>
    rw [hget] at hi
    cases hi
  | some ids =>
    rw [hget] at hi
    have hentry := (OrdMap.get?_eq_some_iff _).mp hget
    exact mem_flatMap.mpr ⟨_, mem_filter.mpr ⟨hentry, by simp [hr]⟩, hi⟩

theorem filterMap_positions {xs : List α} {g : Nat → α → Option β} {ids : List Nat} (hids : ids.Pairwise (· < ·))
    (hhits : ∀ {i x}, xs[i]? = some x → g i x ≠ none → i ∈ ids) :
    ids.filterMap (fun i => xs[i]?.bind (g i)) = xs.zipIdx.filterMap (fun p => g p.2 p.1) := by
  have hwalk : xs.zipIdx.filterMap (fun p => g p.2 p.1) =
      (xs.zipIdx.map Prod.snd).filterMap (fun i => xs[i]?.bind (g i)) := by
    rw [filterMap_map]
    refine filterMap_congr fun p hp => ?_
    rw [Function.comp_apply, mem_zipIdx_iff_getElem?.mp hp, bind_some]
  have hsome : ∀ l : List Nat, l.filterMap (fun i => xs[i]?.bind (g i)) =
      (l.filter (fun i => (xs[i]?.bind (g i)).isSome)).filterMap (fun i => xs[i]?.bind (g i)) := by
    intro l
    rw [filterMap_filter]
    refine filterMap_congr fun i _ => ?_
    cases xs[i]?.bind (g i) <;> rfl
  have hall : (xs.zipIdx.map Prod.snd).Pairwise (· < ·) := by
    rw [zipIdx_map_snd]
    exact pairwise_lt_range'
  rw [hwalk, hsome ids, hsome (xs.zipIdx.map Prod.snd)]
  congr 1
  refine (hids.filter _).eq_of_mem_iff (hall.filter _) fun i => ?_
  simp only [mem_filter, and_congr_left_iff, isSome_iff_exists, bind_eq_some_iff]
  rintro ⟨y, x, hx, hy⟩
  exact ⟨fun _ => mem_map.mpr ⟨(x, i), mem_zipIdx_iff_getElem?.mpr hx, rfl⟩,
    fun _ => hhits hx (hy ▸ some_ne_none y)⟩

end Candidates

section Pieces

-- What the sources of a store hold, series by series; a later piece takes the place of an
-- earlier one.
abbrev Pieces := List (Labels × List Sample)

def held (pieces : Pieces) (labels : Labels) (ts : Int64) : Option Sample :=
  lastHeld Sample.ts (OrdMap.under pieces labels) ts

variable {p q : Pieces} {labels : Labels}

theorem held_append : held (p ++ q) labels ts = (held q labels ts).or (held p labels ts) := by
  rw [held, under_append, lastHeld_append]
  rfl

theorem held_eq_none (h : labels ∉ p.map Prod.fst) : held p labels ts = none := by
  rw [held, under_eq_nil h]
  rfl

theorem held_of_mem (hkeys : (p.map Prod.fst).Nodup) (h : piece ∈ p) :
    held p piece.1 ts = lastHeld Sample.ts piece.2 ts := by
  rw [held, under_of_mem hkeys h]

theorem mem_of_held {x : Sample} (h : held p labels ts = some x) :
    x.ts = ts ∧ ∃ piece ∈ p, piece.1 = labels ∧ x ∈ piece.2 := by
  obtain ⟨hmem, hts⟩ := mem_of_lastHeld h
  exact ⟨hts, mem_under.mp hmem⟩

-- The pieces that a query over a time range reads from a source with these pieces.
structure Answers (matchers : List Matcher) (t0 t1 : Int64) (answer p : Pieces) : Prop where
  held : ∀ labels ts, held answer labels ts =
    if matchesAll matchers labels = true ∧ t0 ≤ ts ∧ ts ≤ t1 then Tsdb.held p labels ts else none
  ne_nil : ∀ piece ∈ answer, piece.2 ≠ []

section

variable {answer answer' : Pieces}

theorem answers_nil : Answers matchers t0 t1 [] [] :=
  ⟨fun labels ts => by simp [Tsdb.held, under], by simp⟩

theorem Answers.append (h : Answers matchers t0 t1 answer p) (h' : Answers matchers t0 t1 answer' q) :
    Answers matchers t0 t1 (answer ++ answer') (p ++ q) := by
  refine ⟨fun labels ts => ?_, fun piece hpiece => ?_⟩
  · rw [held_append, held_append, h.held, h'.held]
    split_ifs <;> rfl
  · obtain hpiece | hpiece := mem_append.mp hpiece
    · exact h.ne_nil piece hpiece
    · exact h'.ne_nil piece hpiece

theorem Answers.flatMap {α : Type} {xs : List α} {f g : α → Pieces}
    (h : ∀ x ∈ xs, Answers matchers t0 t1 (f x) (g x)) :
    Answers matchers t0 t1 (xs.flatMap f) (xs.flatMap g) := by
  induction xs with
  | nil => exact answers_nil
  | cons x xs ih =>
    obtain ⟨hx, hxs⟩ := forall_mem_cons.mp h
    exact hx.append (ih hxs)

theorem answers_of_mem (hkeys : (p.map Prod.fst).Nodup) (hanswer : (answer.map Prod.fst).Nodup)
    (hsound : ∀ a ∈ answer, a.2 ≠ [] ∧ matchesAll matchers a.1 = true ∧ ∃ piece ∈ p, piece.1 = a.1 ∧
      ∀ ts, lastHeld Sample.ts a.2 ts = if t0 ≤ ts ∧ ts ≤ t1 then lastHeld Sample.ts piece.2 ts else none)
    (hcomplete : ∀ piece ∈ p, matchesAll matchers piece.1 = true →
      ∀ x ∈ piece.2, t0 ≤ x.ts → x.ts ≤ t1 → piece.1 ∈ answer.map Prod.fst) :
    Answers matchers t0 t1 answer p := by
  refine ⟨fun labels ts => ?_, fun a ha => (hsound a ha).1⟩
  by_cases hin : labels ∈ answer.map Prod.fst
  · obtain ⟨a, ha, rfl⟩ := mem_map.mp hin
    obtain ⟨-, hmatch, piece, hp, hlabels, hread⟩ := hsound a ha
    rw [held_of_mem hanswer ha, hread, ← hlabels, held_of_mem hkeys hp]
    simp [hlabels, hmatch]
  · rw [held_eq_none hin]
    split_ifs with hcond
    · -- The series matches and yet is not in the answer: nothing of it lies in the range.
      cases hheld : held p labels ts with
      | none => rfl
      | some x =>
        obtain ⟨rfl, piece, hp, rfl, hx⟩ := mem_of_held hheld
        exact absurd (hcomplete piece hp hcond.1 x hx hcond.2.1 hcond.2.2) hin
    · rfl

end

end Pieces

section Blocks

structure Block.Sound (b : Block) : Prop where
  chunks : ∀ s ∈ b.series, ∀ c ∈ s.2, c.Sound
  labels : (b.series.map Prod.fst).Nodup
  minTs_le : ∀ s ∈ b.series, ∀ c ∈ s.2, b.minTs ≤ c.minTs
  exists_minTs : ∃ s ∈ b.series, ∃ c ∈ s.2, c.minTs = b.minTs
  le_maxTs : ∀ s ∈ b.series, ∀ c ∈ s.2, c.maxTs ≤ b.maxTs
  exists_maxTs : ∃ s ∈ b.series, ∃ c ∈ s.2, c.maxTs = b.maxTs

def seriesPieces (series : FlushedSeries) : Pieces :=
  series.map (fun s => (s.1, s.2.flatMap SealedChunk.data))

def Block.pieces (b : Block) : Pieces := seriesPieces b.series

variable {b : Block}

theorem Block.pieces_fst (b : Block) : b.pieces.map Prod.fst = b.series.map Prod.fst := by
  rw [Block.pieces, seriesPieces, List.map_map]
  rfl

theorem Block.mem_postings (b : Block) :
    i ∈ (b.postings.get? label).getD [] ↔ ∃ s, b.series[i]? = some s ∧ label ∈ s.1 := by
  rw [postings, mem_getD_gather]
  simp only [List.mem_flatMap, List.mem_map, Prod.exists, List.mem_zipIdx_iff_getElem?]
  constructor
  · rintro ⟨l, ids, ⟨labels, chunks, j, hj, l', hl, heq⟩, rfl, hi⟩
    obtain ⟨rfl, rfl⟩ := Prod.mk.inj heq
    obtain rfl := List.mem_singleton.mp hi
    exact ⟨labels, chunks, hj, hl⟩
  · rintro ⟨labels, chunks, hi, hl⟩
    exact ⟨label, [i], ⟨labels, chunks, i, hi, label, hl, rfl⟩, rfl, List.mem_singleton_self i⟩

theorem readSeries_eq_some_iff {s : Labels × List SealedChunk} (h : ∀ c ∈ s.2, c.Sound)
    {a : Labels × List Sample} : readSeries s t0 t1 = some a ↔
      a = (s.1, inRange t0 t1 (s.2.flatMap SealedChunk.data)) ∧ a.2 ≠ [] := by
  unfold readSeries
  simp only [overlapping_inRange h]
  split_ifs with hnil
  · simp only [false_iff, not_and, not_not]
    rintro rfl
    exact hnil
  · simp only [some.injEq]
    exact ⟨fun heq => ⟨heq.symm, heq ▸ hnil⟩, fun heq => heq.1.symm⟩

theorem Block.queryMatchers_eq (b : Block) : b.queryMatchers matchers t0 t1 =
      if t1 < b.minTs ∨ b.maxTs < t0 then [] else b.series.filterMap (readMatching matchers t0 t1) := by
  rw [queryMatchers]
  refine if_congr Iff.rfl rfl ?_
  simp only
  split
  case h_1 ids hids =>
    have hposting : ∀ {i labels label}, (∃ chunks, b.series[i]? = some (labels, chunks)) →
        label ∈ labels → i ∈ (b.postings.get? label).getD [] :=
      fun ⟨chunks, hs⟩ hlabel => b.mem_postings.mpr ⟨_, hs, hlabel⟩
    obtain ⟨hsorted, hcomplete⟩ := postingsCandidates_spec hposting
      (fun hs hlabel hr => mem_postingRegex (hposting hs hlabel) hr) hids
    rw [filterMap_positions (g := fun _ => readMatching matchers t0 t1) hsorted]
    · nth_rewrite 2 [← zipIdx_map_fst 0 b.series]
      rw [filterMap_map]
      rfl
    · intro i s hs hread
      refine hcomplete ⟨s.2, hs⟩ ?_
      by_contra hmatch
      exact hread (if_neg hmatch)
  case h_2 => rfl

theorem Block.queryMatchers_spec (h : b.Sound) (hover : ¬(t1 < b.minTs ∨ b.maxTs < t0)) :
    ((b.queryMatchers matchers t0 t1).map Prod.fst).Nodup ∧ ∀ a, a ∈ b.queryMatchers matchers t0 t1 ↔
        ∃ s ∈ b.series, readMatching matchers t0 t1 s = some a := by
  have hlabels : ∀ {s a}, s ∈ b.series → readMatching matchers t0 t1 s = some a → a.1 = s.1 := by
    intro s a hs hread
    unfold readMatching at hread
    split_ifs at hread with hmatch
    exact congrArg Prod.fst ((readSeries_eq_some_iff (h.chunks s hs)).mp hread).1
  rw [queryMatchers_eq, if_neg hover]
  refine ⟨?_, fun a => mem_filterMap⟩
  rw [map_filterMap, Nodup, pairwise_filterMap]
  refine (pairwise_map.mp h.labels).imp_of_mem fun {s s'} hs hs' hne labels hl labels' hl' => ?_
  rintro rfl
  obtain ⟨a, ha, rfl⟩ := map_eq_some_iff.mp hl
  obtain ⟨a', ha', heq⟩ := map_eq_some_iff.mp hl'
  rw [hlabels hs ha, hlabels hs' ha'] at heq
  exact hne heq.symm

theorem Block.answers (h : b.Sound) : Answers matchers t0 t1 (b.queryMatchers matchers t0 t1) b.pieces := by
  have hkeys : (b.pieces.map Prod.fst).Nodup := b.pieces_fst ▸ h.labels
  by_cases hover : t1 < b.minTs ∨ b.maxTs < t0
  · have hnone : b.queryMatchers matchers t0 t1 = [] := if_pos hover
    rw [hnone]
    refine answers_of_mem hkeys nodup_nil (by simp) ?_
    rintro piece hpiece - x hx h0 h1
    obtain ⟨s, hs, rfl⟩ := mem_map.mp hpiece
    obtain ⟨c, hc, hx⟩ := mem_flatMap.mp hx
    have hmin := (h.minTs_le s hs c hc).trans ((h.chunks s hs c hc).minTs_le hx)
    have hmax := ((h.chunks s hs c hc).le_maxTs hx).trans (h.le_maxTs s hs c hc)
    obtain hlt | hlt := hover
    · exact absurd (hmin.trans h1) (not_le.mpr hlt)
    · exact absurd (h0.trans hmax) (not_le.mpr hlt)
  · obtain ⟨hnodup, hmem⟩ := queryMatchers_spec h hover
    refine answers_of_mem hkeys hnodup (fun a ha => ?_) ?_
    · obtain ⟨s, hs, hread⟩ := (hmem a).mp ha
      unfold readMatching at hread
      split_ifs at hread with hmatch
      obtain ⟨rfl, hne⟩ := (readSeries_eq_some_iff (h.chunks s hs)).mp hread
      exact ⟨hne, hmatch, _, mem_map.mpr ⟨s, hs, rfl⟩, rfl, lastHeld_inRange _⟩
    · intro piece hpiece hmatch x hx h0 h1
      obtain ⟨s, hs, rfl⟩ := mem_map.mp hpiece
      have hin : x ∈ inRange t0 t1 (s.2.flatMap SealedChunk.data) :=
        mem_filter.mpr ⟨hx, decide_eq_true ⟨h0, h1⟩⟩
      have hread : readMatching matchers t0 t1 s = some _ :=
        (if_pos hmatch).trans
          ((readSeries_eq_some_iff (h.chunks s hs)).mpr ⟨rfl, ne_nil_of_mem hin⟩)
      exact mem_map.mpr ⟨_, (hmem _).mpr ⟨s, hs, hread⟩, rfl⟩

end Blocks

section Heads

namespace Head

def perSeries (h : Head) (f : SeriesEntry → List Sample) : Pieces :=
  h.entries.filterMap (fun e => e.map (fun e => (e.labels, f e)))

def pieces (h : Head) : Pieces := h.perSeries SeriesEntry.contents

variable {h : Head}

theorem mem_perSeries : piece ∈ h.perSeries f ↔ ∃ id e, h.entry id = some e ∧ piece = (e.labels, f e) := by
  simp only [perSeries, mem_filterMap, map_eq_some_iff, entry_eq_some_iff]
  constructor
  · rintro ⟨slot, hslot, e, rfl, rfl⟩
    obtain ⟨id, hid⟩ := mem_iff_getElem?.mp hslot
    exact ⟨id, e, hid, rfl⟩
  · rintro ⟨id, e, hid, rfl⟩
    exact ⟨some e, mem_of_getElem? hid, e, rfl, rfl⟩

theorem mem_pieces :
    piece ∈ h.pieces ↔ ∃ id e, h.entry id = some e ∧ piece = (e.labels, e.contents) := mem_perSeries

theorem Sound.nodup_perSeries (hs : h.Sound) : ((h.perSeries f).map Prod.fst).Nodup := by
  rw [perSeries, map_filterMap, Nodup, pairwise_filterMap, pairwise_iff_getElem]
  rintro i j hi hj hlt labels hl labels' hl' rfl
  simp only [Option.map_map, Option.map_eq_some_iff, Function.comp_apply] at hl hl'
  obtain ⟨e, he, rfl⟩ := hl
  obtain ⟨e', he', hlabels⟩ := hl'
  have hid : h.entry i = some e := entry_eq_some_iff.mpr (List.getElem?_eq_some_iff.mpr ⟨hi, he⟩)
  have hid' : h.entry j = some e' := entry_eq_some_iff.mpr (List.getElem?_eq_some_iff.mpr ⟨hj, he'⟩)
  exact hlt.ne (hs.id_unique hid hid' hlabels.symm)

theorem Sound.nodup_pieces (hs : h.Sound) : (h.pieces.map Prod.fst).Nodup := hs.nodup_perSeries

theorem mem_liveSeries {id : Nat} {labels : Labels} :
    (id, labels) ∈ h.liveSeries ↔ ∃ e, h.entry id = some e ∧ e.labels = labels := by
  simp only [liveSeries, mem_filterMap, map_eq_some_iff, Prod.exists, entry_eq_some_iff,
    mem_zipIdx_iff_getElem?, Prod.mk.injEq]
  constructor
  · rintro ⟨slot, i, hslot, e, rfl, rfl, rfl⟩
    exact ⟨e, hslot, rfl⟩
  · rintro ⟨e, he, rfl⟩
    exact ⟨some e, id, he, e, rfl, rfl, rfl⟩

theorem nodup_liveSeries (h : Head) : (h.liveSeries.map Prod.fst).Nodup := by
  rw [liveSeries, List.map_filterMap]
  have hidx : (h.entries.zipIdx.map Prod.snd).Nodup := by
    rw [List.zipIdx_map_snd]
    exact List.nodup_range'
  rw [List.Nodup, List.pairwise_map] at hidx
  rw [List.Nodup, List.pairwise_filterMap]
  refine hidx.imp fun {s s'} hne id hid id' hid' => ?_
  simp only [Option.map_map, Option.map_eq_some_iff] at hid hid'
  obtain ⟨e, -, rfl⟩ := hid
  obtain ⟨e', -, rfl⟩ := hid'
  exact hne

def readEntry (h : Head) (t0 t1 : Int64) (id : Nat) : List Sample :=
  ((h.entry id).map (fun e => e.samples t0 t1)).getD []

theorem Sound.headHits_eq (hs : h.Sound) :
    Store.headHits h matchers = h.seriesMatching (matchesAll matchers) := by
  unfold Store.headHits
  split
  case h_1 ids hids =>
    have hposting : ∀ {id labels label}, (∃ e, h.entry id = some e ∧ e.labels = labels) →
        label ∈ labels → id ∈ h.posting label := by
      rintro id labels label ⟨e, he, rfl⟩ hlabel
      exact (hs.posted label id).mpr ⟨e, he, hlabel⟩
    obtain ⟨hsorted, hcomplete⟩ := postingsCandidates_spec hposting
      (fun hs hlabel hr => mem_postingRegex (hposting hs hlabel) hr) hids
    have hslot : ∀ id, ((h.labelsOf id).filter (matchesAll matchers)).map (fun labels => (id, labels)) =
        h.entries[id]?.bind (fun slot =>
          (slot.map (fun e => (id, e.labels))).filter (fun s => matchesAll matchers s.2)) := by
      intro id
      rw [labelsOf, entry]
      obtain hnone | ⟨_ | e, hsome⟩ := eq_none_or_eq_some h.entries[id]?
      · simp [hnone]
      · simp [hsome]
      · by_cases hmatch : matchesAll matchers e.labels = true
        · simp [hsome, Option.filter, hmatch]
        · simp [hsome, Option.filter, hmatch]
    rw [funext hslot, filterMap_positions hsorted, seriesMatching, liveSeries, filter_filterMap]
    intro id slot hid hmatch
    cases slot with
    | none => exact absurd rfl hmatch
    | some e =>
      refine hcomplete ⟨e, entry_eq_some_iff.mpr hid, rfl⟩ ?_
      by_contra hnot
      simp [Option.filter, hnot] at hmatch
  case h_2 => rfl

theorem Sound.headHits_spec (hs : h.Sound) : ((Store.headHits h matchers).map Prod.fst).Nodup ∧
      ∀ id labels, (id, labels) ∈ Store.headHits h matchers ↔
        matchesAll matchers labels = true ∧ ∃ e, h.entry id = some e ∧ e.labels = labels := by
  rw [hs.headHits_eq]
  refine ⟨((filter_sublist).map _).nodup h.nodup_liveSeries, fun id labels => ?_⟩
  rw [seriesMatching, mem_filter, mem_liveSeries, and_comm]

theorem Sound.headPieces_eq (hs : h.Sound) : Store.headPieces h matchers t0 t1 =
      .ok (((Store.headHits h matchers).map (fun s => (s.2, h.readEntry t0 t1 s.1))).filter
        (fun p => p.2 ≠ [])) := by
  have hread : ∀ s ∈ Store.headHits h matchers,
      (do return (s.2, ← h.samples s.1 t0 t1)) = .ok (s.2, h.readEntry t0 t1 s.1) := by
    rintro ⟨id, labels⟩ hmem
    obtain ⟨-, e, he, -⟩ := (hs.headHits_spec.2 id labels).mp hmem
    simp only [samples, readEntry, he]
    rfl
  rw [Store.headPieces, mapM_eq_ok_map hread]
  rfl

theorem Sound.answers (hs : h.Sound) :
    ∃ answer, Store.headPieces h matchers t0 t1 = .ok answer ∧ Answers matchers t0 t1 answer h.pieces := by
  refine ⟨_, hs.headPieces_eq, ?_⟩
  obtain ⟨hnodup, hhits⟩ := hs.headHits_spec
  refine answers_of_mem hs.nodup_pieces ?_ (fun a ha => ?_) ?_
  · refine ((filter_sublist).map _).nodup ?_
    rw [List.map_map, List.Nodup, List.pairwise_map]
    refine (pairwise_map.mp hnodup).imp_of_mem fun {s s'} hmem hmem' hne heq => ?_
    obtain ⟨-, e, he, hlabels⟩ := (hhits s.1 s.2).mp hmem
    obtain ⟨-, e', he', hlabels'⟩ := (hhits s'.1 s'.2).mp hmem'
    exact hne (hs.id_unique he he' (hlabels.trans (heq.trans hlabels'.symm)))
  · obtain ⟨ha, hne⟩ := mem_filter.mp ha
    obtain ⟨⟨id, labels⟩, hmem, rfl⟩ := mem_map.mp ha
    obtain ⟨hmatch, e, he, rfl⟩ := (hhits id labels).mp hmem
    refine ⟨by simpa using hne, hmatch, _, mem_pieces.mpr ⟨id, e, he, rfl⟩, rfl, fun ts => ?_⟩
    rw [readEntry, he]
    exact lastHeld_samples (hs.entries he)
  · intro piece hpiece hmatch x hx h0 h1
    obtain ⟨id, e, he, rfl⟩ := mem_pieces.mp hpiece
    have hne : h.readEntry t0 t1 id ≠ [] := by
      intro hnil
      rw [readEntry, he, map_some, getD_some] at hnil
      have hlast : lastHeld Sample.ts (e.samples t0 t1) x.ts = _ :=
        lastHeld_samples (hs.entries he)
      obtain ⟨y, hy⟩ := exists_lastHeld Sample.ts hx
      rw [hnil, if_pos ⟨h0, h1⟩, hy] at hlast
      cases hlast
    exact mem_map.mpr ⟨(e.labels, h.readEntry t0 t1 id), mem_filter.mpr
      ⟨mem_map.mpr ⟨(id, e.labels), (hhits id e.labels).mpr ⟨hmatch, e, he, rfl⟩, rfl⟩,
        by simpa using hne⟩, rfl⟩

-- Heads as a store leads them: series are made, appended to, flushed and collected.
inductive Reachable : Head → Prop
  | new : Reachable new
  | getOrCreate {old next : Head} (hr : Reachable old)
    (hget : old.getOrCreate l maxSeries = .ok (next, i, created)) : Reachable next
  | append {old next : Head} (hr : Reachable old) (happend : old.append i x w oooWindow = .ok next) : Reachable next
  | takeBefore {old next : Head} (hr : Reachable old) (htake : old.takeBefore boundary w = .ok (out, next)) :
    Reachable next

theorem Reachable.sound (hr : h.Reachable) : h.Sound := by
  induction hr with
  | new => exact sound_new
  | getOrCreate _ hget ih => exact (ih.getOrCreate hget).1
  | append _ happend ih => exact ih.append happend
  | takeBefore _ htake ih => exact ih.takeBefore htake

-- A matcher may accept a series that lacks its label; no posting lists such series.
theorem postings_select (hr : h.Reachable) (matchers : List Matcher) :
    Store.headHits h matchers = h.liveSeries.filter (fun s => ∀ m ∈ matchers, m.accepts s.2) ∧
      ∀ (b : Block) (t0 t1 : Int64), b.queryMatchers matchers t0 t1 = if t1 < b.minTs ∨ b.maxTs < t0 then [] else
        (b.series.filter (fun s => ∀ m ∈ matchers, m.accepts s.1)).filterMap (readSeries · t0 t1) := by
  have hall : ∀ labels, matchesAll matchers labels = decide (∀ m ∈ matchers, m.accepts labels) := by
    intro labels
    rw [matchesAll, Bool.eq_iff_iff, List.all_eq_true, decide_eq_true_iff]
  refine ⟨?_, fun b t0 t1 => ?_⟩
  · rw [hr.sound.headHits_eq, seriesMatching]
    simp only [hall]
  · have hread : readMatching matchers t0 t1 = fun s =>
        if decide (∀ m ∈ matchers, m.accepts s.1) then readSeries s t0 t1 else none :=
      funext fun s => by rw [readMatching, hall]
    rw [b.queryMatchers_eq, filterMap_filter, hread]

-- The first series is collected with its only window and made again under a new id.
theorem postings_select_remade : ∃ h : Head,
    h.liveSeries = [(1, [⟨"host", "b"⟩, ⟨"zone", "y"⟩]), (2, [⟨"host", "a"⟩])] ∧
    Store.headHits h [.ne "zone" "x", .eq "host" "a", .re "zone" (· = "")] = [(2, [⟨"host", "a"⟩])] := by
  have hmade := Reachable.getOrCreate .new (rfl : new.getOrCreate [⟨"host", "a"⟩] none = _)
  have hother := Reachable.getOrCreate hmade (rfl : getOrCreate _ [⟨"host", "b"⟩, ⟨"zone", "y"⟩] none = _)
  have hfirst := Reachable.append hother (rfl : append _ 0 ⟨5, ⟨1⟩⟩ 10 100 = _)
  have hsecond := Reachable.append hfirst (rfl : append _ 1 ⟨25, ⟨1⟩⟩ 10 100 = _)
  have hflushed := Reachable.takeBefore hsecond (rfl : takeBefore _ 10 10 = _)
  have hremade := Reachable.getOrCreate hflushed (rfl : getOrCreate _ [⟨"host", "a"⟩] none = _)
  exact ⟨_, by decide, (postings_select hremade _).1.trans (by decide)⟩

end Head

end Heads

section Queries

namespace Store

-- All that the store holds: the blocks in their order, then the head.
def pieces (s : Store) : Pieces := s.blocks.flatMap Block.pieces ++ s.head.pieces

structure Sound (s : Store) : Prop where
  head : s.head.Sound
  blocks : ∀ b ∈ s.blocks, b.Sound

variable {s s' : Store}

-- What a result of a query is, in terms of what counts for each series and time.
structure QueryResult (s : Store) (matchers : List Matcher) (t0 t1 : Int64) (result : Pieces) : Prop where
  sorted : result.Pairwise (fun a b => a.1 < b.1)
  ascending : ∀ a ∈ result, Ascending a.2
  mem : ∀ labels x, (∃ xs, (labels, xs) ∈ result ∧ x ∈ xs) ↔
    matchesAll matchers labels = true ∧ (t0 ≤ x.ts ∧ x.ts ≤ t1) ∧ held s.pieces labels x.ts = some x
  ne_nil : ∀ a ∈ result, a.2 ≠ []

theorem Sound.query_spec (hs : s.Sound) :
    ∃ result, s.query matchers t0 t1 = .ok result ∧ QueryResult s matchers t0 t1 result := by
  obtain ⟨fromHead, hhead, hanswer⟩ : ∃ answer, headPieces s.head matchers t0 t1 = .ok answer ∧
    Answers matchers t0 t1 answer s.head.pieces := hs.head.answers
  have hall : Answers matchers t0 t1
      (s.blocks.flatMap (fun b => b.queryMatchers matchers t0 t1) ++ fromHead) s.pieces :=
    (Answers.flatMap fun b hb => Block.answers (hs.blocks b hb)).append hanswer
  set answer := s.blocks.flatMap (fun b => b.queryMatchers matchers t0 t1) ++ fromHead
  refine ⟨_, by rw [query, hhead]; rfl, ?_⟩
  refine ⟨?_, fun a ha => ?_, fun labels x => ?_, fun a ha => ?_⟩
  · exact List.pairwise_map.mpr (OrdMap.gather answer).sorted
  · rw [(OrdMap.mem_map_gather.mp ha).2]
    exact settle_sorted
  · have hheld := hall.held labels x.ts
    constructor
    · rintro ⟨xs, hxs, hx⟩
      obtain ⟨-, heq⟩ := OrdMap.mem_map_gather.mp hxs
      rw [show xs = _ from heq] at hx
      have hsome : held answer labels x.ts = some x := mem_settle.mp hx
      rw [hsome] at hheld
      split_ifs at hheld with hcond
      exact ⟨hcond.1, hcond.2, hheld.symm⟩
    · rintro ⟨hmatch, hrange, hsome⟩
      rw [if_pos ⟨hmatch, hrange⟩, hsome] at hheld
      have hin : labels ∈ answer.map Prod.fst := by
        by_contra hnot
        rw [held_eq_none hnot] at hheld
        cases hheld
      exact ⟨_, OrdMap.mem_map_gather.mpr ⟨hin, rfl⟩, mem_settle.mpr hheld⟩
  · obtain ⟨hin, heq⟩ := OrdMap.mem_map_gather.mp ha
    obtain ⟨piece, hpiece, hlabels⟩ := List.mem_map.mp hin
    obtain ⟨x, hx⟩ := List.exists_mem_of_ne_nil _ (hall.ne_nil piece hpiece)
    obtain ⟨y, hy⟩ := exists_lastHeld Sample.ts (OrdMap.mem_under.mpr ⟨piece, hpiece, hlabels, hx⟩)
    rw [heq]
    exact List.ne_nil_of_mem (mem_settle.mpr ((mem_of_lastHeld hy).2.symm ▸ hy))

theorem QueryResult.unique (h : QueryResult s matchers t0 t1 r) (h' : QueryResult s matchers t0 t1 r') :
    r = r' := by
  have hkeys : ∀ {r}, QueryResult s matchers t0 t1 r → ∀ {a a'}, a ∈ r → a' ∈ r → a.1 = a'.1 → a = a' :=
    fun {r} hr {a a'} ha ha' heq => eq_of_key_eq hr.sorted ha ha' heq
  have hsub : ∀ {r r'}, QueryResult s matchers t0 t1 r → QueryResult s matchers t0 t1 r' →
      ∀ a ∈ r, a ∈ r' := by
    rintro r r' h h' ⟨labels, xs⟩ ha
    obtain ⟨x, hx⟩ := exists_mem_of_ne_nil _ (h.ne_nil _ ha)
    obtain ⟨xs', ha', hx'⟩ := (h'.mem labels x).mpr ((h.mem labels x).mp ⟨xs, ha, hx⟩)
    have hsame : ∀ y, y ∈ xs ↔ y ∈ xs' := by
      intro y
      constructor
      · intro hy
        obtain ⟨ys, hys, hy'⟩ := (h'.mem labels y).mpr ((h.mem labels y).mp ⟨xs, ha, hy⟩)
        exact (Prod.mk.inj (hkeys h' hys ha' rfl)).2 ▸ hy'
      · intro hy
        obtain ⟨ys, hys, hy'⟩ := (h.mem labels y).mpr ((h'.mem labels y).mp ⟨xs', ha', hy⟩)
        exact (Prod.mk.inj (hkeys h hys ha rfl)).2 ▸ hy'
    have heq : xs = xs' := eq_of_mem_iff_of_sorted (h.ascending _ ha) (h'.ascending _ ha') hsame
    exact heq ▸ ha'
  exact eq_of_mem_iff_of_sorted h.sorted h'.sorted fun a => ⟨hsub h h' a, hsub h' h a⟩

-- Queries see of two stores just what counts for each series and time.
theorem Sound.query_eq_iff (hs : s.Sound) (hs' : s'.Sound) :
    (∀ matchers t0 t1, s'.query matchers t0 t1 = s.query matchers t0 t1) ↔
      ∀ labels ts, held s'.pieces labels ts = held s.pieces labels ts := by
  constructor
  · intro h labels ts
    have heq := h [] Int64.minValue Int64.maxValue
    obtain ⟨r, hr, hspec⟩ := hs.query_spec
    obtain ⟨r', hr', hspec'⟩ := hs'.query_spec
    obtain rfl : r' = r := Except.ok.inj (hr'.symm.trans (heq.trans hr))
    have hsome : ∀ x : Sample, held s'.pieces labels x.ts = some x ↔ held s.pieces labels x.ts = some x := by
      intro x
      have hrange : Int64.minValue ≤ x.ts ∧ x.ts ≤ Int64.maxValue := ⟨x.ts.minValue_le, x.ts.le_maxValue⟩
      have hmem := (hspec'.mem labels x).symm.trans (hspec.mem labels x)
      simpa [matchesAll, hrange] using hmem
    refine ext fun x => ?_
    constructor
    · intro hx
      obtain ⟨rfl, -⟩ := mem_of_held hx
      exact (hsome x).mp hx
    · intro hx
      obtain ⟨rfl, -⟩ := mem_of_held hx
      exact (hsome x).mpr hx
  · intro h matchers t0 t1
    obtain ⟨r, hr, hspec⟩ := hs.query_spec
    obtain ⟨r', hr', hspec'⟩ := hs'.query_spec
    have hsame : QueryResult s matchers t0 t1 r' :=
      ⟨hspec'.sorted, hspec'.ascending, fun labels x => by rw [hspec'.mem, h], hspec'.ne_nil⟩
    rw [hr, hr', hsame.unique hspec]

end Store

end Queries

end Skaidb.Tsdb
