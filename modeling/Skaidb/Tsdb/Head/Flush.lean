import Skaidb.Tsdb.Compact.Held

namespace Skaidb.Tsdb

open Skaidb.Base List OrdMap Option SeriesEntry

namespace Head

section Under

variable {h : Head} {id : Nat} {e : SeriesEntry} {labels : Labels}

theorem Sound.under_perSeries (hs : h.Sound) (he : h.entry id = some e) :
    under (h.perSeries f) e.labels = f e :=
  under_of_mem hs.nodup_perSeries (mem_perSeries.mpr ⟨id, e, he, rfl⟩)

theorem under_perSeries_of_not_live (hnot : ∀ id e, h.entry id = some e → e.labels ≠ labels) :
    under (h.perSeries f) labels = [] := by
  refine under_eq_nil fun hmem => ?_
  obtain ⟨piece, hpiece, hlabels⟩ := mem_map.mp hmem
  obtain ⟨id, e, he, rfl⟩ := mem_perSeries.mp hpiece
  exact hnot id e he hlabels

theorem Sound.under_entry (hs : h.Sound) (he : h.entry id = some e) :
    under h.pieces e.labels = e.contents := hs.under_perSeries he

theorem under_of_not_live (hnot : ∀ id e, h.entry id = some e → e.labels ≠ labels) :
    under h.pieces labels = [] := under_perSeries_of_not_live hnot

theorem Sound.mem_under_iff (hs : h.Sound) :
    x ∈ under h.pieces labels ↔ ∃ id e, h.entry id = some e ∧ e.labels = labels ∧ x ∈ e.contents := by
  constructor
  · intro hx
    obtain ⟨piece, hpiece, hlabels, hx⟩ := mem_under.mp hx
    obtain ⟨id, e, he, rfl⟩ := mem_pieces.mp hpiece
    exact ⟨id, e, he, hlabels, hx⟩
  · rintro ⟨id, e, he, rfl, hx⟩
    rwa [hs.under_entry he]

end Under

section Flush

variable {h h' : Head} {boundary span : Int64}

theorem mem_flushed (ht : h.takeBefore boundary span = .ok (out, h')) :
    s ∈ out ↔ ∃ id e, h.entry id = some e ∧ e.flushed boundary span = some s := by
  obtain ⟨-, -, rfl, -⟩ := takeBefore_eq_ok ht
  simp only [mem_filterMap, bind_eq_some_iff, entry_eq_some_iff]
  constructor
  · rintro ⟨slot, hslot, e, rfl, hflushed⟩
    obtain ⟨id, hid⟩ := mem_iff_getElem?.mp hslot
    exact ⟨id, e, hid, hflushed⟩
  · rintro ⟨id, e, hid, hflushed⟩
    exact ⟨some e, mem_of_getElem? hid, e, rfl, hflushed⟩

theorem flushed_eq_some_iff {e : SeriesEntry} : e.flushed boundary span = some s ↔
      s.1 = e.labels ∧ s.2 ≠ [] ∧ ∃ e', e.takeBefore boundary span = .ok (s.2, e') := by
  obtain ⟨chunks, e', htake⟩ := e.takeBefore_ok boundary span
  rw [flushed, htake]
  simp only
  split_ifs with hnil
  · simp only [false_iff, not_and]
    rintro - hne ⟨e'', heq⟩
    exact hne ((Prod.mk.inj (Except.ok.inj heq)).1 ▸ hnil)
  · rw [Option.some.injEq, Prod.ext_iff]
    constructor
    · rintro ⟨hlabels, rfl⟩
      exact ⟨hlabels.symm, hnil, e', rfl⟩
    · rintro ⟨hlabels, -, e'', heq⟩
      exact ⟨hlabels.symm, (Prod.mk.inj (Except.ok.inj heq)).1⟩

section

variable (hs : h.Sound) (ht : h.takeBefore boundary span = .ok (out, h'))

include hs ht

theorem Sound.flushed_sound : SeriesSound out := by
  constructor
  · intro s hmem
    obtain ⟨id, e, he, hflushed⟩ := (mem_flushed ht).mp hmem
    obtain ⟨-, -, e', htake⟩ := flushed_eq_some_iff.mp hflushed
    exact ((hs.entries he).takeBefore htake).2
  · obtain ⟨-, -, rfl, -⟩ := takeBefore_eq_ok ht
    have hnodup := hs.nodup_pieces
    rw [pieces, perSeries, map_filterMap, Nodup, pairwise_filterMap] at hnodup
    rw [map_filterMap, Nodup, pairwise_filterMap]
    refine hnodup.imp fun {slot slot'} hne labels hl labels' hl' => ?_
    obtain ⟨s, hbind, rfl⟩ := map_eq_some_iff.mp hl
    obtain ⟨s', hbind', rfl⟩ := map_eq_some_iff.mp hl'
    obtain ⟨e, rfl, hflushed⟩ := bind_eq_some_iff.mp hbind
    obtain ⟨e', rfl, hflushed'⟩ := bind_eq_some_iff.mp hbind'
    exact hne _ (by rw [(flushed_eq_some_iff.mp hflushed).1]; rfl) _
      (by rw [(flushed_eq_some_iff.mp hflushed').1]; rfl)

theorem Sound.exists_flushed (hne : out ≠ []) :
    ∃ labels x, x ∈ under (seriesPieces out) labels := by
  obtain ⟨series, hseries⟩ := exists_mem_of_ne_nil _ hne
  obtain ⟨id, e, -, hflushed⟩ := (mem_flushed ht).mp hseries
  obtain ⟨c, hc⟩ := exists_mem_of_ne_nil _ (flushed_eq_some_iff.mp hflushed).2.1
  obtain ⟨x, hx⟩ := exists_mem_of_ne_nil _ ((hs.flushed_sound ht).chunks series hseries c hc).ne_nil
  exact ⟨series.1, x, mem_under_seriesPieces.mpr ⟨series, hseries, rfl, c, hc, hx⟩⟩

theorem Sound.under_takeBefore {id : Nat} {e e' : SeriesEntry} {chunks : List SealedChunk} (he : h.entry id = some e)
    (htake : e.takeBefore boundary span = .ok (chunks, e')) :
    under (seriesPieces out) e.labels = chunks.flatMap SealedChunk.data ∧
      under h'.pieces e.labels = e'.contents := by
  have hsame : ∀ {id'' e''}, h.entry id'' = some e'' → e''.labels = e.labels → e'' = e := by
    intro id'' e'' he'' hlabels
    obtain rfl := hs.id_unique he he'' hlabels.symm
    exact Option.some.inj (he''.symm.trans he)
  constructor
  · by_cases hnil : chunks = []
    · subst hnil
      refine under_eq_nil fun hmem => ?_
      obtain ⟨piece, hpiece, hlabels⟩ := mem_map.mp hmem
      obtain ⟨s, hs, rfl⟩ := mem_map.mp hpiece
      obtain ⟨id'', e'', he'', hflushed⟩ := (mem_flushed ht).mp hs
      obtain ⟨hlabels'', hne, e₁, htake''⟩ := flushed_eq_some_iff.mp hflushed
      obtain rfl := hsame he'' (hlabels''.symm.trans hlabels)
      exact hne (Prod.mk.inj (Except.ok.inj (htake''.symm.trans htake))).1
    · have hmem : (e.labels, chunks) ∈ out :=
        (mem_flushed ht).mpr ⟨id, e, he, flushed_eq_some_iff.mpr ⟨rfl, hnil, e', htake⟩⟩
      have hnodup : ((seriesPieces out).map Prod.fst).Nodup := by
        rw [seriesPieces, List.map_map]
        exact (hs.flushed_sound ht).labels
      exact under_of_mem hnodup (mem_map.mpr ⟨_, hmem, rfl⟩)
  · obtain ⟨rfl, -, -⟩ := takeBefore_eq htake
    cases hkept : e.kept boundary with
    | none =>
      have hidle : ((e.sealBefore boundary).keepFrom boundary).idle = true := by
        by_contra hnot
        have hsome := kept_eq_some_iff.mpr ⟨rfl, by simpa using hnot⟩
        rw [hkept] at hsome
        cases hsome
      rw [contents_of_idle hidle]
      refine under_of_not_live fun id'' e'' he'' hlabels => ?_
      rw [entry_takeBefore ht] at he''
      obtain ⟨e₁, he₁, hkept₁⟩ := bind_eq_some_iff.mp he''
      obtain rfl := hsame he₁ ((kept_labels hkept₁).symm.trans hlabels)
      rw [hkept] at hkept₁
      cases hkept₁
    | some rest =>
      have hrest := (kept_eq_some_iff.mp hkept).1
      have hentry : h'.entry id = some rest := by rw [entry_takeBefore ht, he]; exact hkept
      rw [hrest, ← kept_labels hkept]
      exact (hs.takeBefore ht).under_entry hentry

omit hs in
theorem under_takeBefore_of_not_live {labels : Labels}
    (hnot : ∀ id e, h.entry id = some e → e.labels ≠ labels) :
    under (seriesPieces out) labels = [] ∧ under h'.pieces labels = [] := by
  constructor
  · refine under_eq_nil fun hmem => ?_
    obtain ⟨piece, hpiece, hlabels⟩ := mem_map.mp hmem
    obtain ⟨s, hs, rfl⟩ := mem_map.mp hpiece
    obtain ⟨id, e, he, hflushed⟩ := (mem_flushed ht).mp hs
    exact hnot id e he ((flushed_eq_some_iff.mp hflushed).1.symm.trans hlabels)
  · refine under_of_not_live fun id e' he' hlabels => ?_
    rw [entry_takeBefore ht] at he'
    obtain ⟨e, he, hkept⟩ := bind_eq_some_iff.mp he'
    exact hnot id e he ((kept_labels hkept).symm.trans hlabels)

theorem Sound.flush_subset (labels : Labels) :
    under (seriesPieces out) labels ⊆ under h.pieces labels ∧
      under h'.pieces labels ⊆ under h.pieces labels := by
  by_cases hlive : ∃ id e, h.entry id = some e ∧ e.labels = labels
  · obtain ⟨id, e, he, rfl⟩ := hlive
    obtain ⟨chunks, e', htake⟩ := e.takeBefore_ok boundary span
    obtain ⟨hout, hrest⟩ := hs.under_takeBefore ht he htake
    rw [hout, hrest, hs.under_entry he]
    exact ⟨fun x hx => mem_takeBefore htake (.inl hx),
      fun x hx => mem_takeBefore htake (.inr hx)⟩
  · push Not at hlive
    obtain ⟨hout, hrest⟩ := under_takeBefore_of_not_live ht hlive
    rw [hout, hrest]
    exact ⟨nil_subset _, nil_subset _⟩

-- What counts for a time is in the block unless it is still in the head, and the other way
-- round.
theorem Sound.flush_held (labels : Labels) (ts : Int64) :
    (held h'.pieces labels ts = none → held (seriesPieces out) labels ts = held h.pieces labels ts) ∧
      (held (seriesPieces out) labels ts = none → held h'.pieces labels ts = held h.pieces labels ts) := by
  simp only [held]
  by_cases hlive : ∃ id e, h.entry id = some e ∧ e.labels = labels
  · obtain ⟨id, e, he, rfl⟩ := hlive
    obtain ⟨chunks, e', htake⟩ := e.takeBefore_ok boundary span
    obtain ⟨hout, hrest⟩ := hs.under_takeBefore ht he htake
    rw [hout, hrest, hs.under_entry he]
    exact takeBefore_split htake
  · push Not at hlive
    obtain ⟨hout, hrest⟩ := under_takeBefore_of_not_live ht hlive
    rw [hout, hrest, under_of_not_live hlive]
    exact ⟨fun _ => rfl, fun _ => rfl⟩

end

end Flush

end Head

end Skaidb.Tsdb
