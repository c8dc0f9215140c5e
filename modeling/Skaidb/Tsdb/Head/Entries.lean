import Skaidb.Base.Results
import Skaidb.Tsdb.Head

namespace Skaidb.Tsdb

open Skaidb.Base List Option SealedChunk Sample ChunkBuilder

abbrev Ascending (samples : List Sample) : Prop := samples.Pairwise (fun a b => a.ts < b.ts)

variable {chunks : List SealedChunk}

section Chunks

structure SealedChunk.Sound (c : SealedChunk) : Prop where
  ne_nil : c.data ≠ []
  ascending : Ascending c.data
  sealed : c = sealChunk c.data

theorem append_eq_ok {b b' : ChunkBuilder} {s : Sample} (h : b.append s = .ok b') :
    b' = b ++ [s] ∧ ∀ x ∈ b.getLast?, x.ts < s.ts := by
  unfold append at h
  split at h
  case h_1 hnone =>
    have hb : b = [] := getLast?_eq_none_iff.mp hnone
    subst hb
    obtain rfl := Except.ok.inj h
    simp
  case h_2 last hlast =>
    split_ifs at h with hle
    obtain rfl := Except.ok.inj h
    refine ⟨rfl, fun x hx => ?_⟩
    obtain rfl : last = x := Option.some.inj (hlast.symm.trans hx)
    exact lt_of_not_ge hle

theorem ascending_append_singleton {b : List Sample} {s : Sample} (hb : Ascending b)
    (hlast : ∀ x ∈ b.getLast?, x.ts < s.ts) : Ascending (b ++ [s]) := by
  refine pairwise_append.mpr ⟨hb, pairwise_singleton _ _, ?_⟩
  intro x hx y hy
  obtain rfl := mem_singleton.mp hy
  obtain ⟨init, last, rfl⟩ : ∃ init last, b = init ++ [last] :=
    ⟨_, _, (dropLast_append_getLast (ne_nil_of_mem hx)).symm⟩
  have hlt := hlast last (by simp)
  obtain hx | hx := mem_append.mp hx
  · exact ((pairwise_append.mp hb).2.2 x hx last (by simp)).trans hlt
  · exact mem_singleton.mp hx ▸ hlt

theorem sound_sealChunk {b : ChunkBuilder} (hne : b ≠ []) (hb : Ascending b) : (sealChunk b).Sound :=
  ⟨hne, hb, rfl⟩

variable {samples : List Sample}

theorem rechunkFrom_spec {span : Int64} {builder : ChunkBuilder} (hb : Ascending builder)
    (h : rechunkFrom span samples builder window = .ok chunks) :
    chunks.flatMap data = builder ++ samples ∧ ∀ c ∈ chunks, c.Sound := by
  induction samples generalizing builder window chunks with
  | nil =>
    obtain rfl := Except.ok.inj h
    split_ifs with hnil
    · simp [hnil]
    · simpa [sealChunk] using sound_sealChunk hnil hb
  | cons s rest ih =>
    rw [rechunkFrom] at h
    split_ifs at h with hcut
    · obtain ⟨fresh, hfresh, h⟩ := bind_eq_ok_iff.mp h
      obtain ⟨chunks', hchunks', h⟩ := bind_eq_ok_iff.mp h
      obtain rfl := Except.ok.inj h
      obtain rfl : fresh = [s] := (Except.ok.inj hfresh).symm
      obtain ⟨hdata, hsound⟩ := ih (pairwise_singleton _ _) hchunks'
      refine ⟨by simp [hdata, sealChunk], ?_⟩
      intro c hc
      obtain rfl | hc := mem_cons.mp hc
      · exact sound_sealChunk hcut.1 hb
      · exact hsound c hc
    · obtain ⟨builder', hbuilder', h⟩ := bind_eq_ok_iff.mp h
      obtain ⟨rfl, hlast⟩ := append_eq_ok hbuilder'
      have hrest := ih (ascending_append_singleton hb hlast) h
      rwa [append_assoc, singleton_append] at hrest

theorem rechunk_spec {span : Int64} (h : rechunk samples span = .ok chunks) :
    chunks.flatMap data = samples ∧ ∀ c ∈ chunks, c.Sound :=
  rechunkFrom_spec Pairwise.nil h

theorem rechunkFrom_ok {builder : ChunkBuilder} (span window : Int64)
    (h : Ascending (builder ++ samples)) : ∃ chunks, rechunkFrom span samples builder window = .ok chunks := by
  induction samples generalizing builder window with
  | nil => exact ⟨_, rfl⟩
  | cons s rest ih =>
    rw [rechunkFrom]
    split_ifs with hcut
    · have hrest : Ascending ([s] ++ rest) := (pairwise_append.mp h).2.1
      obtain ⟨chunks, hchunks⟩ := ih (windowOf span s.ts) hrest
      exact ⟨sealChunk builder :: chunks, by
        simp [append, hchunks, bind, Except.bind, pure, Except.pure]⟩
    · have happend : builder.append s = .ok (builder ++ [s]) := by
        unfold append
        split
        case h_1 hnone => rw [getLast?_eq_none_iff.mp hnone, nil_append]
        case h_2 last hlast =>
          have hlt := (pairwise_append.mp h).2.2 last (mem_of_getLast? hlast) s (by simp)
          rw [if_neg (not_le.mpr hlt)]
      rw [happend]
      exact ih (windowOf span s.ts) (by simpa using h)

theorem rechunk_ok (span : Int64) (h : Ascending samples) : ∃ chunks, rechunk samples span = .ok chunks :=
  rechunkFrom_ok span Int64.minValue h

namespace SealedChunk.Sound

variable {c : SealedChunk} {x : Sample}

theorem minTs_eq (h : c.Sound) : c.minTs = firstTs c.data := congrArg minTs h.sealed

theorem maxTs_eq (h : c.Sound) : c.maxTs = lastTs c.data := congrArg maxTs h.sealed

theorem minTs_le (h : c.Sound) (hx : x ∈ c.data) : c.minTs ≤ x.ts := by
  have hasc := h.ascending
  rw [h.minTs_eq]
  cases hdata : c.data with
  | nil => exact absurd hdata h.ne_nil
  | cons y rest =>
    rw [hdata] at hx hasc
    obtain rfl | hx := mem_cons.mp hx
    · exact le_refl _
    · exact ((pairwise_cons.mp hasc).1 x hx).le

theorem le_maxTs (h : c.Sound) (hx : x ∈ c.data) : x.ts ≤ c.maxTs := by
  have hasc := h.ascending
  obtain ⟨init, last, hdata⟩ : ∃ init last, c.data = init ++ [last] :=
    ⟨_, _, (dropLast_append_getLast h.ne_nil).symm⟩
  rw [hdata] at hx hasc
  have hmax : c.maxTs = last.ts := by
    rw [h.maxTs_eq, hdata]
    simp [lastTs]
  rw [hmax]
  obtain hx | hx := mem_append.mp hx
  · exact ((pairwise_append.mp hasc).2.2 x hx last (by simp)).le
  · exact (mem_singleton.mp hx ▸ le_refl _)

theorem exists_minTs (h : c.Sound) : ∃ x ∈ c.data, x.ts = c.minTs := by
  rw [h.minTs_eq]
  cases hdata : c.data with
  | nil => exact absurd hdata h.ne_nil
  | cons y rest => exact ⟨y, mem_cons_self, rfl⟩

end SealedChunk.Sound

end Chunks

section Entries

namespace SeriesEntry

def openSamples (e : SeriesEntry) : List Sample := (e.openChunk.map Prod.snd).getD []

-- All that the entry holds; where a time occurs twice the later one counts.
def contents (e : SeriesEntry) : List Sample :=
  e.sealed.flatMap SealedChunk.data ++ (e.openSamples ++ e.ooo)

structure Sound (e : SeriesEntry) : Prop where
  sealed : ∀ c ∈ e.sealed, c.Sound
  opened : Ascending e.openSamples
  ooo : Ascending e.ooo

theorem contents_of_idle {e : SeriesEntry} (h : e.idle = true) : e.contents = [] := by
  obtain ⟨hsealed, hopen, hooo⟩ := of_decide_eq_true h
  simp [contents, openSamples, hsealed, hopen, hooo]

theorem sound_fresh {labels : Labels} : (fresh labels).Sound :=
  ⟨by simp [fresh], Pairwise.nil, Pairwise.nil⟩

section SealOpen

variable {e : SeriesEntry}

theorem sealOpen_contents {e : SeriesEntry} : e.sealOpen.contents = e.contents := by
  unfold sealOpen contents
  split
  case h_1 => rfl
  case h_2 w builder hopen =>
    split_ifs with hnil <;> simp [openSamples, hopen, hnil, sealChunk]

theorem sealOpen_spec (e : SeriesEntry) :
    e.sealOpen.labels = e.labels ∧ e.sealOpen.openChunk = none ∧ e.sealOpen.ooo = e.ooo ∧
      e.sealOpen.lastTs = e.lastTs := by
  unfold sealOpen
  split
  case h_1 hopen => exact ⟨rfl, hopen, rfl, rfl⟩
  case h_2 => split_ifs <;> exact ⟨rfl, rfl, rfl, rfl⟩

theorem Sound.sealOpen (h : e.Sound) : e.sealOpen.Sound := by
  obtain ⟨-, hopen, hooo, -⟩ := sealOpen_spec e
  refine ⟨?_, by simp [openSamples, hopen], hooo ▸ h.ooo⟩
  intro c hc
  unfold SeriesEntry.sealOpen at hc
  split at hc
  case h_1 => exact h.sealed c hc
  case h_2 w builder hopen =>
    split_ifs at hc with hnil
    · exact h.sealed c hc
    · obtain hc | hc := mem_append.mp hc
      · exact h.sealed c hc
      · obtain rfl := mem_singleton.mp hc
        have hasc := h.opened
        rw [openSamples, hopen] at hasc
        exact sound_sealChunk hnil hasc

end SealOpen

variable {x : Sample}

section Append

variable {e e' : SeriesEntry} {s : Sample} {span oooWindow : Int64}

theorem mem_insertOoo (h : x ∈ insertOoo s xs) : x = s ∨ x ∈ xs := by
  induction xs with
  | nil => simpa [insertOoo] using h
  | cons y ys ih =>
    rw [insertOoo] at h
    split_ifs at h
    · simpa using h
    · obtain h | h := mem_cons.mp h
      · exact .inl h
      · exact .inr (mem_cons_of_mem _ h)
    · obtain h | h := mem_cons.mp h
      · exact .inr (h ▸ mem_cons_self)
      · obtain h | h := ih h
        · exact .inl h
        · exact .inr (mem_cons_of_mem _ h)

theorem ascending_insertOoo (h : Ascending xs) : Ascending (insertOoo s xs) := by
  induction xs with
  | nil => exact pairwise_singleton _ _
  | cons y ys ih =>
    obtain ⟨hy, hys⟩ := pairwise_cons.mp h
    rw [insertOoo]
    split_ifs with hlt heq
    · refine pairwise_cons.mpr ⟨fun z hz => ?_, h⟩
      obtain rfl | hz := mem_cons.mp hz
      · exact hlt
      · exact hlt.trans (hy z hz)
    · exact pairwise_cons.mpr ⟨fun z hz => heq ▸ hy z hz, hys⟩
    · refine pairwise_cons.mpr ⟨fun z hz => ?_, ih hys⟩
      obtain rfl | hz := mem_insertOoo hz
      · exact lt_of_le_of_ne (not_lt.mp hlt) (Ne.symm heq)
      · exact hy z hz

theorem append_cases (h : e.append s span oooWindow = .ok e') :
    (s.ts ≤ e.lastTs ∧ e' = { e with ooo := insertOoo s e.ooo }) ∨
      (e.lastTs < s.ts ∧ ∃ base builder, e.chunkFor (windowOf span s.ts) = (base, builder) ∧
        builder.append s = .ok (builder ++ [s]) ∧
        e' = { base with openChunk := some (windowOf span s.ts, builder ++ [s]), lastTs := s.ts }) := by
  unfold append at h
  split_ifs at h with hle hwindow hfull
  · exact .inl ⟨hle, (Except.ok.inj h).symm⟩
  · obtain ⟨builder', hbuilder', h⟩ := bind_eq_ok_iff.mp h
    obtain ⟨rfl, -⟩ := append_eq_ok hbuilder'
    exact .inr ⟨not_le.mp hle, _, _, rfl, hbuilder', (Except.ok.inj h).symm⟩

theorem chunkFor_cases {e : SeriesEntry} : e.chunkFor window = (e.sealOpen, []) ∨
      ∃ builder, e.openChunk = some (window, builder) ∧ builder.length < chunkMaxSamples ∧
        e.chunkFor window = (e, builder) := by
  unfold chunkFor
  split
  case h_1 => exact .inl rfl
  case h_2 w builder hopen =>
    split_ifs with hcut
    · exact .inl rfl
    · obtain ⟨hw, hlen⟩ := not_or.mp hcut
      obtain rfl := not_not.mp hw
      exact .inr ⟨builder, hopen, not_le.mp hlen, rfl⟩

section

variable (h : e.append s span oooWindow = .ok e')

include h

theorem append_labels : e'.labels = e.labels := by
  obtain ⟨-, rfl⟩ | ⟨-, base, builder, hchunk, -, rfl⟩ := append_cases h
  · rfl
  · obtain hcut | ⟨_, -, -, hgo⟩ := chunkFor_cases
    · obtain ⟨rfl, -⟩ := Prod.mk.inj (hchunk.symm.trans hcut)
      exact (sealOpen_spec e).1
    · obtain ⟨rfl, -⟩ := Prod.mk.inj (hchunk.symm.trans hgo)
      rfl

theorem append_contents :
    (s.ts ≤ e.lastTs ∧ e' = { e with ooo := insertOoo s e.ooo }) ∨
      (e.lastTs < s.ts ∧ e'.lastTs = s.ts ∧ e'.ooo = e.ooo ∧
        ∃ front, e.contents = front ++ e.ooo ∧ e'.contents = front ++ s :: e.ooo) := by
  obtain ⟨hle, rfl⟩ | ⟨hlt, base, builder, hchunk, -, rfl⟩ := append_cases h
  · exact .inl ⟨hle, rfl⟩
  · right
    obtain hcut | ⟨b, hopen, -, hgo⟩ := chunkFor_cases
    · obtain ⟨rfl, rfl⟩ := Prod.mk.inj (hchunk.symm.trans hcut)
      obtain ⟨-, hopen, hooo, -⟩ := sealOpen_spec e
      refine ⟨hlt, rfl, hooo, e.sealOpen.sealed.flatMap data, ?_, ?_⟩
      · rw [← sealOpen_contents, contents, openSamples, hopen, hooo]
        rfl
      · simp [contents, openSamples, hooo]
    · obtain ⟨rfl, rfl⟩ := Prod.mk.inj (hchunk.symm.trans hgo)
      refine ⟨hlt, rfl, rfl, base.sealed.flatMap data ++ builder, ?_, ?_⟩
      · simp [contents, openSamples, hopen]
      · simp [contents, openSamples]

theorem mem_append_contents (hx : x ∈ e'.contents) : x = s ∨ x ∈ e.contents := by
  obtain ⟨-, rfl⟩ | ⟨-, -, -, front, hcontents, hcontents'⟩ := append_contents h
  · simp only [contents, mem_append] at hx ⊢
    obtain hx | hx | hx := hx
    · exact .inr (.inl hx)
    · exact .inr (.inr (.inl hx))
    · obtain hx | hx := mem_insertOoo hx
      · exact .inl hx
      · exact .inr (.inr (.inr hx))
  · rw [hcontents', mem_append, mem_cons] at hx
    rw [hcontents, mem_append]
    tauto

end

theorem Sound.append (he : e.Sound) (h : e.append s span oooWindow = .ok e') : e'.Sound := by
  obtain ⟨-, rfl⟩ | ⟨-, base, builder, hchunk, happend, rfl⟩ := append_cases h
  · exact ⟨he.sealed, he.opened, ascending_insertOoo he.ooo⟩
  · have hlast := (append_eq_ok happend).2
    obtain hcut | ⟨b, hopen, -, hgo⟩ := chunkFor_cases
    · obtain ⟨rfl, rfl⟩ := Prod.mk.inj (hchunk.symm.trans hcut)
      exact ⟨he.sealOpen.sealed, pairwise_singleton _ _, he.sealOpen.ooo⟩
    · obtain ⟨rfl, rfl⟩ := Prod.mk.inj (hchunk.symm.trans hgo)
      have hasc := he.opened
      rw [openSamples, hopen] at hasc
      exact ⟨he.sealed, ascending_append_singleton hasc hlast, he.ooo⟩

end Append

section Take

variable {e e' : SeriesEntry} {boundary span : Int64} {flushed : List SealedChunk}

theorem sealBefore_cases {e : SeriesEntry} :
    e.sealBefore boundary = e ∨ e.sealBefore boundary = e.sealOpen := by
  unfold sealBefore
  split
  · split_ifs
    · exact .inr rfl
    · exact .inl rfl
  · exact .inl rfl

theorem sealBefore_spec (e : SeriesEntry) (boundary : Int64) :
    (e.sealBefore boundary).labels = e.labels ∧ (e.sealBefore boundary).contents = e.contents ∧
      (e.sealBefore boundary).ooo = e.ooo ∧ (e.sealBefore boundary).lastTs = e.lastTs := by
  obtain h | h := sealBefore_cases
  · rw [h]
    exact ⟨rfl, rfl, rfl, rfl⟩
  · obtain ⟨hlabels, -, hooo, hlast⟩ := sealOpen_spec e
    rw [h]
    exact ⟨hlabels, sealOpen_contents, hooo, hlast⟩

theorem Sound.sealBefore (h : e.Sound) (boundary : Int64) : (e.sealBefore boundary).Sound := by
  obtain heq | heq := sealBefore_cases
  · rw [heq]
    exact h
  · rw [heq]
    exact h.sealOpen

theorem due_append_drop (e : SeriesEntry) (boundary : Int64) :
    e.ooo = e.due boundary ++ e.ooo.drop (e.due boundary).length := by
  have hpre : e.due boundary <+: e.ooo := takeWhile_prefix _
  have htake := prefix_iff_eq_take.mp hpre
  calc e.ooo = e.ooo.take (e.due boundary).length ++ e.ooo.drop (e.due boundary).length :=
        (take_append_drop _ _).symm
    _ = _ := by rw [← htake]

theorem takeBefore_ok (e : SeriesEntry) (boundary span : Int64) :
    ∃ flushed e', e.takeBefore boundary span = .ok (flushed, e') := by
  unfold SeriesEntry.takeBefore
  simp only
  split_ifs with hdue
  · exact ⟨_, _, rfl⟩
  · have hasc : Ascending (settle ts
        (((e.sealBefore boundary).flushable boundary).flatMap data ++
          (e.sealBefore boundary).due boundary)) := settle_sorted
    obtain ⟨chunks, hchunks⟩ := rechunk_ok span hasc
    exact ⟨chunks, _, by rw [hchunks]; rfl⟩

section

variable (h : e.takeBefore boundary span = .ok (flushed, e'))

include h

-- What is flushed of a sealed entry holds for each time what the chunks and the due
-- samples hold together.
theorem takeBefore_eq : e' = (e.sealBefore boundary).keepFrom boundary ∧ (∀ k, lastHeld ts (flushed.flatMap data) k =
        lastHeld ts (((e.sealBefore boundary).flushable boundary).flatMap data ++
          (e.sealBefore boundary).due boundary) k) ∧
      ((Ascending (flushed.flatMap data) ∧ ∀ c ∈ flushed, c.Sound) ∨
        flushed = (e.sealBefore boundary).flushable boundary) := by
  unfold takeBefore at h
  simp only at h
  split_ifs at h with hdue
  · obtain ⟨rfl, rfl⟩ := Prod.mk.inj (Except.ok.inj h)
    exact ⟨rfl, fun k => by rw [hdue, append_nil], .inr rfl⟩
  · obtain ⟨chunks, hchunks, h⟩ := bind_eq_ok_iff.mp h
    obtain ⟨rfl, rfl⟩ := Prod.mk.inj (Except.ok.inj h)
    obtain ⟨hdata, hsound⟩ := rechunk_spec hchunks
    exact ⟨rfl, fun k => by rw [hdata, lastHeld_settle], .inl ⟨hdata ▸ settle_sorted, hsound⟩⟩

-- What stays does not hold a time that is gone: then the flushed chunks hold what the
-- entry held; and the other way round.
theorem takeBefore_split :
    (lastHeld ts e'.contents k = none → lastHeld ts (flushed.flatMap data) k = lastHeld ts e.contents k) ∧
    (lastHeld ts (flushed.flatMap data) k = none → lastHeld ts e'.contents k = lastHeld ts e.contents k) := by
  obtain ⟨rfl, hflushed, -⟩ := takeBefore_eq h
  obtain ⟨-, hcontents, -, -⟩ := sealBefore_spec e boundary
  rw [hflushed, ← hcontents]
  set a := e.sealBefore boundary
  have hdue := due_append_drop a boundary
  have hchunks : ∀ c ∈ a.sealed, lastHeld ts ((a.keepFrom boundary).sealed.flatMap data) k = none →
      ¬c.maxTs < boundary → lastHeld ts c.data k = none := by
    intro c hc hnone hmax
    exact lastHeld_flatMap_eq_none_iff.mp hnone c
      (mem_filter.mpr ⟨hc, decide_eq_true (not_lt.mp hmax)⟩)
  have hooo : lastHeld ts a.ooo k =
      (lastHeld ts (a.keepFrom boundary).ooo k).or (lastHeld ts (a.due boundary) k) := by
    conv_lhs => rw [hdue]
    rw [lastHeld_append]
    rfl
  have hopen : (a.keepFrom boundary).openSamples = a.openSamples := rfl
  constructor
  · intro hnone
    simp only [contents, lastHeld_append, or_eq_none_iff] at hnone
    obtain ⟨⟨hrest, hopened⟩, hkept⟩ := hnone
    rw [hopen] at hopened
    have hsealed : lastHeld ts ((a.flushable boundary).flatMap data) k =
        lastHeld ts (a.sealed.flatMap data) k :=
      lastHeld_flatMap_filter fun c hc hp => hchunks c hc hkept (by simpa using hp)
    simp only [contents, lastHeld_append, hooo, hrest, hopened, hsealed, none_or, or_none]
  · intro hnone
    rw [lastHeld_append, or_eq_none_iff] at hnone
    have hsealed : lastHeld ts ((a.keepFrom boundary).sealed.flatMap data) k =
        lastHeld ts (a.sealed.flatMap data) k := by
      refine lastHeld_flatMap_filter fun c hc hp => ?_
      exact lastHeld_flatMap_eq_none_iff.mp hnone.2 c
        (mem_filter.mpr ⟨hc, decide_eq_true (not_le.mp (by simpa using hp))⟩)
    simp only [contents, lastHeld_append, hooo, hnone.1, hopen, hsealed, or_none]

theorem Sound.takeBefore (he : e.Sound) : e'.Sound ∧ ∀ c ∈ flushed, c.Sound := by
  obtain ⟨rfl, -, hflushed⟩ := takeBefore_eq h
  have ha := he.sealBefore boundary
  refine ⟨⟨fun c hc => ha.sealed c (mem_of_mem_filter hc), ha.opened, ?_⟩, ?_⟩
  · exact ha.ooo.sublist (drop_sublist _ _)
  · obtain ⟨-, hsound⟩ | rfl := hflushed
    · exact hsound
    · exact fun c hc => ha.sealed c (mem_of_mem_filter hc)

theorem mem_takeBefore (hx : x ∈ flushed.flatMap data ∨ x ∈ e'.contents) : x ∈ e.contents := by
  obtain ⟨rfl, hlast, hflushed⟩ := takeBefore_eq h
  obtain ⟨-, hcontents, -, -⟩ := sealBefore_spec e boundary
  rw [← hcontents]
  set a := e.sealBefore boundary
  have hparts : ∀ {y}, y ∈ (a.flushable boundary).flatMap data ++ a.due boundary →
      y ∈ a.contents := by
    intro y hy
    obtain hy | hy := mem_append.mp hy
    · obtain ⟨c, hc, hy⟩ := mem_flatMap.mp hy
      exact mem_append_left _ (mem_flatMap.mpr ⟨c, mem_of_mem_filter hc, hy⟩)
    · exact mem_append_right _ (mem_append_right _ ((takeWhile_sublist _).mem hy))
  obtain hx | hx := hx
  · obtain ⟨hasc, -⟩ | rfl := hflushed
    · have hheld := (lastHeld_eq_some_iff hasc).mpr ⟨hx, rfl⟩
      rw [hlast] at hheld
      exact hparts (mem_of_lastHeld hheld).1
    · exact hparts (mem_append_left _ hx)
  · simp only [contents, mem_append] at hx ⊢
    obtain hx | hx | hx := hx
    · obtain ⟨c, hc, hx⟩ := mem_flatMap.mp hx
      exact .inl (mem_flatMap.mpr ⟨c, mem_of_mem_filter hc, hx⟩)
    · exact .inr (.inl hx)
    · exact .inr (.inr ((drop_sublist _ _).mem hx))

end

end Take

section Samples

variable {e : SeriesEntry}

theorem overlapping_inRange (h : ∀ c ∈ chunks, c.Sound) :
    (overlapping t0 t1 chunks).flatMap (fun c => inRange t0 t1 c.data) =
      inRange t0 t1 (chunks.flatMap data) := by
  induction chunks with
  | nil => rfl
  | cons c chunks ih =>
    obtain ⟨hc, hchunks⟩ := forall_mem_cons.mp h
    rw [flatMap_cons, inRange, filter_append]
    change _ = inRange t0 t1 c.data ++ inRange t0 t1 (chunks.flatMap data)
    rw [← ih hchunks, overlapping, filter_cons]
    split_ifs with hover
    · rw [flatMap_cons]
      rfl
    · have hnone : inRange t0 t1 c.data = [] := by
        rw [inRange, filter_eq_nil_iff]
        intro x hx hrange
        obtain ⟨h0, h1⟩ := of_decide_eq_true hrange
        have hmin := hc.minTs_le hx
        have hmax := hc.le_maxTs hx
        simp only [decide_not, Bool.not_eq_true', decide_eq_false_iff_not, not_not] at hover
        obtain hlt | hlt := hover
        · exact absurd (h0.trans hmax) (not_le.mpr hlt)
        · exact absurd (hmin.trans h1) (not_le.mpr hlt)
      rw [hnone, nil_append]
      rfl

theorem lastHeld_inRange (samples : List Sample) (k : Int64) : lastHeld ts (inRange t0 t1 samples) k =
      if t0 ≤ k ∧ k ≤ t1 then lastHeld ts samples k else none := by
  have h : lastHeld ts (samples.filter (fun x => decide (t0 ≤ x.ts ∧ x.ts ≤ t1))) k = _ :=
    lastHeld_filter (fun k => decide (t0 ≤ k ∧ k ≤ t1)) samples k
  simpa [inRange] using h

theorem inRange_chunks (h : e.Sound) : (overlapping t0 t1 e.sealed).flatMap (fun c => inRange t0 t1 c.data) ++
      inRange t0 t1 ((e.openChunk.map Prod.snd).getD []) =
        inRange t0 t1 (e.sealed.flatMap data ++ e.openSamples) := by
  rw [overlapping_inRange h.sealed, inRange, inRange, inRange, filter_append]
  rfl

theorem lastHeld_samples (h : e.Sound) : lastHeld ts (e.samples t0 t1) k =
      if t0 ≤ k ∧ k ≤ t1 then lastHeld ts e.contents k else none := by
  rw [← lastHeld_inRange]
  unfold samples contents
  simp only [inRange_chunks h]
  split_ifs with hooo
  · rw [hooo, append_nil]
  · rw [lastHeld_settle, inRange, inRange, inRange, ← filter_append, append_assoc]

theorem mem_samples (h : e.Sound) (hx : x ∈ e.samples t0 t1) : x ∈ e.contents ∧ t0 ≤ x.ts ∧ x.ts ≤ t1 := by
  have hread : x ∈ inRange t0 t1 e.contents := by
    unfold samples at hx
    simp only [inRange_chunks h] at hx
    unfold contents
    split_ifs at hx with hooo
    · rwa [hooo, append_nil]
    · have hx := (mem_of_lastHeld (mem_settle.mp hx)).1
      rwa [inRange, inRange, ← filter_append, append_assoc] at hx
  simpa [inRange] using hread

end Samples

end SeriesEntry

end Entries

end Skaidb.Tsdb
