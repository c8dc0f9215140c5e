import Skaidb.Base.Runs
import Skaidb.Tsdb.Wal.Frames

namespace Skaidb.Tsdb

open Skaidb.Base List

section Histories

-- The log of a process that comes and goes, with the records appended since the last sync
-- and, of the segments that are still there, the synced records.
structure Logged where
  segments : Segments
  wal : Option Wal
  unsynced : List Record
  kept : List (Nat × Record)

inductive WalEvent where
  | open
  | append (record : Record)
  | sync
  | beginCheckpoint
  | truncateBefore (seq done : Nat)
  | crash (tail : Bytes)
  deriving DecidableEq

namespace Logged

def fresh : Logged := ⟨[], none, [], []⟩

-- What a sync adds to the kept records: nothing when the segment has been removed under
-- its writer.
def synced (s : Logged) (w : Wal) (records : List Record) : List (Nat × Record) :=
  s.kept ++ if w.seq ∈ s.segments.map Prod.fst then records.map (fun r => (w.seq, r)) else []

def step (s : Logged) : WalEvent → Logged
  | .open =>
    match s.wal with
    | some _ => s
    | none => ⟨(Wal.open s.segments).1, some (Wal.open s.segments).2, [], s.kept⟩
  | .append r =>
    match s.wal with
    | none => s
    | some w =>
      let (segments, w') := w.append s.segments r
      if w'.seq = w.seq then ⟨segments, some w', s.unsynced ++ [r], s.kept⟩
      else ⟨segments, some w', [], s.synced w (s.unsynced ++ [r])⟩
  | .sync =>
    match s.wal with
    | none => s
    | some w => ⟨(w.sync s.segments).1, some (w.sync s.segments).2, [], s.synced w s.unsynced⟩
  | .beginCheckpoint =>
    match s.wal with
    | none => s
    | some w =>
      ⟨(w.beginCheckpoint s.segments).1, some (w.beginCheckpoint s.segments).2.1, [],
        s.synced w s.unsynced⟩
  | .truncateBefore seq done =>
    match s.wal with
    | none => s
    | some _ =>
      let segments := Wal.truncateBefore s.segments seq done
      { s with
        segments := segments
        kept := s.kept.filter (fun r => r.1 ∈ segments.map Prod.fst) }
  | .crash tail =>
    match s.wal with
    | none => s
    | some w => ⟨w.crash s.segments tail, none, [], s.kept⟩

end Logged

end Histories

variable {segs : List Segment} {s : Logged} (g : Segment)

section Segments

structure Segment where
  seq : Nat
  records : List Record
  tail : Bytes

namespace Segment

def file : Nat × Bytes := (g.seq, g.records.flatMap Record.frame ++ g.tail)

def tagged : List (Nat × Record) := g.records.map (fun r => (g.seq, r))

def Fits : Prop := ∀ r ∈ g.records, r.Fits

def sync (seq : Nat) (records : List Record) (g : Segment) : Segment :=
  if g.seq = seq then { g with records := g.records ++ records } else g

def crash (seq : Nat) (tail : Bytes) (g : Segment) : Segment :=
  if g.seq = seq then { g with tail := tail } else g

theorem seq_of_mem_tagged {g : Segment} (h : r ∈ g.tagged) : r.1 = g.seq := by
  obtain ⟨r, -, rfl⟩ := mem_map.mp h
  rfl

@[simp] theorem seq_sync (seq : Nat) (records : List Record) (g : Segment) : (g.sync seq records).seq = g.seq := by
  unfold sync
  split <;> rfl

@[simp] theorem seq_crash (seq : Nat) (tail : Bytes) (g : Segment) : (g.crash seq tail).seq = g.seq := by
  unfold crash
  split <;> rfl

end Segment

theorem flatMap_tagged_sync {seq : Nat} {records : List Record}
    (hasc : segs.Pairwise (fun a b => a.seq < b.seq)) (hle : ∀ g ∈ segs, g.seq ≤ seq) :
    (segs.map (Segment.sync seq records)).flatMap Segment.tagged = segs.flatMap Segment.tagged ++
        if seq ∈ segs.map Segment.seq then records.map (fun r => (seq, r)) else [] := by
  induction segs with
  | nil => simp
  | cons g segs ih =>
    obtain ⟨hg, hasc⟩ := pairwise_cons.mp hasc
    obtain ⟨hgle, hle⟩ := forall_mem_cons.mp hle
    by_cases hseq : g.seq = seq
    · have hnil : segs = [] := by
        rw [eq_nil_iff_forall_not_mem]
        intro g' hg'
        have := hg g' hg'
        have := hle g' hg'
        omega
      subst hnil
      simp [Segment.sync, Segment.tagged, hseq]
    · have hsync : g.sync seq records = g := if_neg hseq
      have hmem : seq ∈ (g :: segs).map Segment.seq ↔ seq ∈ segs.map Segment.seq := by
        rw [map_cons, mem_cons, or_iff_right (fun h => hseq h.symm)]
      rw [map_cons, flatMap_cons, hsync, ih hasc hle, flatMap_cons, append_assoc]
      simp only [hmem]

theorem filter_tagged_drop (hasc : segs.Pairwise (fun a b => a.seq < b.seq)) :
    (segs.flatMap Segment.tagged).filter (fun r => r.1 ∈ (segs.drop n).map Segment.seq) =
      (segs.drop n).flatMap Segment.tagged := by
  have hsplit : segs.flatMap Segment.tagged =
      (segs.take n).flatMap Segment.tagged ++ (segs.drop n).flatMap Segment.tagged := by
    rw [← flatMap_append, take_append_drop]
  have hcross : ∀ a ∈ segs.take n, ∀ b ∈ segs.drop n, a.seq < b.seq := by
    rw [← take_append_drop n segs] at hasc
    exact (pairwise_append.mp hasc).2.2
  have hold : ((segs.take n).flatMap Segment.tagged).filter
      (fun r => r.1 ∈ (segs.drop n).map Segment.seq) = [] := by
    rw [filter_eq_nil_iff]
    intro r hr hmem
    obtain ⟨a, ha, hra⟩ := mem_flatMap.mp hr
    obtain ⟨b, hb, hrb⟩ := mem_map.mp (of_decide_eq_true hmem)
    have := hcross a ha b hb
    have := Segment.seq_of_mem_tagged hra
    omega
  have hrest : ((segs.drop n).flatMap Segment.tagged).filter
      (fun r => r.1 ∈ (segs.drop n).map Segment.seq) = (segs.drop n).flatMap Segment.tagged := by
    rw [filter_eq_self]
    intro r hr
    obtain ⟨b, hb, hrb⟩ := mem_flatMap.mp hr
    rw [Segment.seq_of_mem_tagged hrb]
    exact decide_eq_true (mem_map_of_mem hb)
  rw [hsplit, filter_append, hold, hrest, nil_append]

-- The states a history reaches: every file is its segment written out.
structure Logged.Tracks (s : Logged) (segs : List Segment) : Prop where
  files : s.segments = segs.map Segment.file
  kept : s.kept = segs.flatMap Segment.tagged
  ascending : segs.Pairwise (fun a b => a.seq < b.seq)
  fits : ∀ g ∈ segs, g.Fits
  writer : ∀ w, s.wal = some w → w.buffered = s.unsynced.flatMap Record.frame ∧
    (∀ r ∈ s.unsynced, r.Fits) ∧ ∀ g ∈ segs, g.seq ≤ w.seq ∧ (g.seq = w.seq → g.tail = [])

namespace Logged.Tracks

variable {s : Logged} {segs : List Segment} {w : Wal}

section

variable (h : s.Tracks segs)

include h

theorem seqs : s.segments.map Prod.fst = segs.map Segment.seq := by
  rw [h.files, map_map]
  rfl

theorem push {seq : Nat} (hnew : ∀ g ∈ segs, g.seq < seq) :
    Logged.Tracks ⟨s.segments ++ [(seq, [])], some ⟨seq, [], 0⟩, [], s.kept⟩ (segs ++ [⟨seq, [], []⟩]) := by
  refine ⟨?_, ?_, ?_, ?_, ?_⟩
  · rw [h.files, map_append]
    rfl
  · rw [flatMap_append, ← h.kept]
    simp [Segment.tagged]
  · refine pairwise_append.mpr ⟨h.ascending, pairwise_singleton _ _, ?_⟩
    intro a ha b hb
    obtain rfl := mem_singleton.mp hb
    exact hnew a ha
  · intro g hg
    obtain hg | hg := mem_append.mp hg
    · exact h.fits g hg
    · obtain rfl := mem_singleton.mp hg
      intro r hr
      exact absurd hr (by simp)
  · intro w hw
    obtain rfl := Option.some.inj hw
    refine ⟨rfl, by simp, ?_⟩
    intro g hg
    obtain hg | hg := mem_append.mp hg
    · have hlt : g.seq < seq := hnew g hg
      exact ⟨hlt.le, fun heq => absurd heq hlt.ne⟩
    · obtain rfl := mem_singleton.mp hg
      exact ⟨Nat.le_refl _, fun _ => rfl⟩

section

variable (hw : s.wal = some w)

include hw

theorem sync : Logged.Tracks ⟨(w.sync s.segments).1, some (w.sync s.segments).2, [], s.synced w s.unsynced⟩
      (segs.map (Segment.sync w.seq s.unsynced)) := by
  obtain ⟨hbuffered, hfits, hsegs⟩ := h.writer w hw
  refine ⟨?_, ?_, ?_, ?_, ?_⟩
  · simp only [Wal.sync, h.files, map_map]
    refine map_congr_left fun g hg => ?_
    by_cases hseq : g.seq = w.seq
    · have htail := (hsegs g hg).2 hseq
      simp [Segment.file, Segment.sync, hseq, htail, hbuffered]
    · simp [Segment.file, Segment.sync, hseq]
  · rw [flatMap_tagged_sync h.ascending (fun g hg => (hsegs g hg).1), ← h.kept, ← h.seqs]
    rfl
  · rw [pairwise_map]
    simpa using h.ascending
  · intro g' hg'
    obtain ⟨g, hg, rfl⟩ := mem_map.mp hg'
    by_cases hseq : g.seq = w.seq
    · intro r hr
      rw [Segment.sync, if_pos hseq] at hr
      obtain hr | hr := mem_append.mp hr
      · exact h.fits g hg r hr
      · exact hfits r hr
    · rw [Segment.sync, if_neg hseq]
      exact h.fits g hg
  · intro w' hw'
    obtain rfl := Option.some.inj hw'
    refine ⟨rfl, by simp, ?_⟩
    intro g' hg'
    obtain ⟨g, hg, rfl⟩ := mem_map.mp hg'
    rw [Segment.seq_sync]
    refine ⟨(hsegs g hg).1, fun hseq => ?_⟩
    have htail := (hsegs g hg).2 hseq
    unfold Segment.sync
    split <;> exact htail

theorem roll : ∃ segs', Logged.Tracks
      ⟨(w.roll s.segments).1, some (w.roll s.segments).2, [], s.synced w s.unsynced⟩ segs' := by
  have hnew : ∀ g ∈ segs.map (Segment.sync w.seq s.unsynced), g.seq < w.seq + 1 := by
    intro g' hg'
    obtain ⟨g, hg, rfl⟩ := mem_map.mp hg'
    have := ((h.writer w hw).2.2 g hg).1
    rw [Segment.seq_sync]
    omega
  exact ⟨_, (h.sync hw).push hnew⟩

theorem buffer {r : Record} (hr : r.Fits) (segBytes : Nat) :
    Logged.Tracks ⟨s.segments, some ⟨w.seq, w.buffered ++ r.frame, segBytes⟩, s.unsynced ++ [r], s.kept⟩
      segs := by
  obtain ⟨hbuffered, hfits, hsegs⟩ := h.writer w hw
  refine { h with writer := ?_ }
  intro w' hw'
  obtain rfl := Option.some.inj hw'
  refine ⟨by simp [hbuffered], ?_, hsegs⟩
  intro r' hr'
  obtain hr' | hr' := mem_append.mp hr'
  · exact hfits r' hr'
  · exact mem_singleton.mp hr' ▸ hr

theorem crash (tail : Bytes) :
    Logged.Tracks ⟨w.crash s.segments tail, none, [], s.kept⟩ (segs.map (Segment.crash w.seq tail)) := by
  obtain ⟨-, -, hsegs⟩ := h.writer w hw
  have hrecords : ∀ g, (Segment.crash w.seq tail g).records = g.records := by
    intro g
    unfold Segment.crash
    split <;> rfl
  refine ⟨?_, ?_, ?_, ?_, by simp⟩
  · simp only [Wal.crash, h.files, map_map]
    refine map_congr_left fun g hg => ?_
    by_cases hseq : g.seq = w.seq
    · have htail := (hsegs g hg).2 hseq
      simp [Segment.file, Segment.crash, hseq, htail]
    · simp [Segment.file, Segment.crash, hseq]
  · rw [h.kept, flatMap_map]
    exact congrArg (fun f => segs.flatMap f) (funext fun g => by
      rw [Segment.tagged, Segment.tagged, hrecords, Segment.seq_crash])
  · rw [pairwise_map]
    simpa using h.ascending
  · intro g' hg'
    obtain ⟨g, hg, rfl⟩ := mem_map.mp hg'
    rw [Segment.Fits, hrecords]
    exact h.fits g hg

end

theorem drop (n : Nat) : Logged.Tracks
      { s with
        segments := s.segments.drop n
        kept := s.kept.filter (fun r => r.1 ∈ (s.segments.drop n).map Prod.fst) } (segs.drop n) := by
  have hseqs : (s.segments.drop n).map Prod.fst = (segs.drop n).map Segment.seq := by
    rw [map_drop, h.seqs, map_drop]
  refine ⟨?_, ?_, h.ascending.sublist (drop_sublist n segs), ?_, ?_⟩
  · show s.segments.drop n = _
    rw [map_drop, ← h.files]
  · show s.kept.filter (fun r => r.1 ∈ (s.segments.drop n).map Prod.fst) = _
    rw [hseqs, h.kept]
    exact filter_tagged_drop h.ascending
  · exact fun g hg => h.fits g (mem_of_mem_drop hg)
  · intro w hw
    obtain ⟨hbuffered, hfits, hsegs⟩ := h.writer w hw
    exact ⟨hbuffered, hfits, fun g hg => hsegs g (mem_of_mem_drop hg)⟩

end

end Logged.Tracks

theorem tracks_fresh : Logged.fresh.Tracks [] :=
  ⟨rfl, rfl, Pairwise.nil, by simp, by simp [Logged.fresh]⟩

theorem nextSeq_gt (h : s.Tracks segs) : ∀ g ∈ segs, g.seq < Wal.nextSeq s.segments := by
  intro g hg
  rw [Wal.nextSeq, h.files, getLast?_map]
  obtain ⟨init, last, rfl⟩ : ∃ init last, segs = init ++ [last] :=
    ⟨_, _, (dropLast_append_getLast (ne_nil_of_mem hg)).symm⟩
  rw [getLast?_concat]
  have hlast := (pairwise_append.mp h.ascending).2.2
  obtain hg | hg := mem_append.mp hg
  · have := hlast g hg last (by simp)
    simp only [Option.map_some, Segment.file]
    omega
  · obtain rfl := mem_singleton.mp hg
    simp [Segment.file]

theorem Logged.Tracks.step (h : s.Tracks segs) (hfits : ∀ r, e = .append r → r.Fits) :
    ∃ segs', (s.step e).Tracks segs' := by
  cases hw : s.wal with
  | none =>
    cases e with
    | «open» =>
      simp only [Logged.step, hw]
      exact ⟨_, h.push (nextSeq_gt h)⟩
    | _ =>
      simp only [Logged.step, hw]
      exact ⟨segs, h⟩
  | some w =>
    cases e with
    | «open» =>
      simp only [Logged.step, hw]
      exact ⟨segs, h⟩
    | append r =>
      have hbuffer := h.buffer hw (hfits r rfl) (w.segBytes + (8 + r.encode.length))
      by_cases hfull : segmentMaxBytes ≤ w.segBytes + (8 + r.encode.length)
      · have happend : w.append s.segments r =
            Wal.roll ⟨w.seq, w.buffered ++ r.frame, w.segBytes + (8 + r.encode.length)⟩ s.segments :=
          if_pos hfull
        have hseq : (w.append s.segments r).2.seq ≠ w.seq := by
          rw [happend]
          exact Nat.succ_ne_self w.seq
        simp only [Logged.step, hw]
        rw [if_neg hseq, happend]
        exact hbuffer.roll rfl
      · have happend : w.append s.segments r =
            (s.segments, ⟨w.seq, w.buffered ++ r.frame, w.segBytes + (8 + r.encode.length)⟩) :=
          if_neg hfull
        have hseq : (w.append s.segments r).2.seq = w.seq := by
          rw [happend]
        simp only [Logged.step, hw]
        rw [if_pos hseq, happend]
        exact ⟨segs, hbuffer⟩
    | sync =>
      simp only [Logged.step, hw]
      exact ⟨_, h.sync hw⟩
    | beginCheckpoint =>
      simp only [Logged.step, hw]
      exact h.roll hw
    | truncateBefore seq done =>
      simp only [Logged.step, hw]
      have hdrop := h.drop (min done (s.segments.takeWhile (fun s => s.1 < seq)).length)
      rw [hw] at hdrop
      exact ⟨_, hdrop⟩
    | crash tail =>
      simp only [Logged.step, hw]
      exact ⟨_, h.crash hw tail⟩

end Segments

section Delivery

theorem replay_cons (hg : g.Fits) : replay (g.file :: files) =
      (g.tagged ++ (recordsIn g.tail).map (fun r => (g.seq, r))) ++
        if Whole g.tail then replay files else [] := by
  have hsegment := replaySegment_eq (Nat.le_refl g.file.2.length)
  have hrecords : recordsIn g.file.2 = g.records ++ recordsIn g.tail := recordsIn_append hg g.tail
  have hwhole : Whole g.file.2 ↔ Whole g.tail := whole_append hg g.tail
  show List.map (fun r => (g.seq, r)) (replaySegment g.file.2.length g.file.2).1 ++
    (if (replaySegment g.file.2.length g.file.2).2 = true then [] else replay files) = _
  rw [hsegment, hrecords, map_append]
  by_cases htail : Whole g.tail <;> simp [hwhole, htail, Segment.tagged]

theorem flatMap_tagged_eq_nil_iff : segs.flatMap Segment.tagged = [] ↔ ∀ g ∈ segs, g.records = [] := by
  simp [Segment.tagged]

-- A segment that replay breaks off in hides the records of all the later ones.
theorem sublist_replay_iff (hasc : segs.Pairwise (fun a b => a.seq < b.seq)) (hfits : ∀ g ∈ segs, g.Fits) :
    (segs.flatMap Segment.tagged).Sublist (replay (segs.map Segment.file)) ↔
      segs.Pairwise (fun a b => b.records ≠ [] → Whole a.tail) := by
  induction segs with
  | nil => simp [replay]
  | cons g segs ih =>
    obtain ⟨hg, hasc⟩ := pairwise_cons.mp hasc
    obtain ⟨hgfits, hfits⟩ := forall_mem_cons.mp hfits
    rw [map_cons, replay_cons g hgfits, flatMap_cons, pairwise_cons, ← ih hasc hfits]
    constructor
    · intro hsub
      -- Of the records with other numbers, the segment itself holds none.
      have hlater : (segs.flatMap Segment.tagged).Sublist
          (if Whole g.tail then replay (segs.map Segment.file) else []) := by
        have hsame : ((g.tagged ++ (recordsIn g.tail).map (fun r => (g.seq, r)))).filter
            (fun r => r.1 ≠ g.seq) = [] := by
          simp [Segment.tagged]
        have hown : g.tagged.filter (fun r => r.1 ≠ g.seq) = [] := by simp [Segment.tagged]
        have hothers : (segs.flatMap Segment.tagged).filter (fun r => r.1 ≠ g.seq) =
            segs.flatMap Segment.tagged := by
          rw [filter_eq_self]
          intro r hr
          obtain ⟨b, hb, hrb⟩ := mem_flatMap.mp hr
          have := hg b hb
          have := Segment.seq_of_mem_tagged hrb
          exact decide_eq_true (by omega)
        have hfilter := hsub.filter (fun r => r.1 ≠ g.seq)
        rw [filter_append, filter_append, hsame, hown, hothers] at hfilter
        exact hfilter.trans filter_sublist
      by_cases htail : Whole g.tail
      · rw [if_pos htail] at hlater
        exact ⟨fun _ _ _ => htail, hlater⟩
      · rw [if_neg htail] at hlater
        have hnil := sublist_nil.mp hlater
        rw [hnil]
        exact ⟨fun b hb hne => absurd (flatMap_tagged_eq_nil_iff.mp hnil b hb) hne, nil_sublist _⟩
    · rintro ⟨hwhole, hsub⟩
      refine (sublist_append_left _ _).append ?_
      by_cases htail : Whole g.tail
      · rw [if_pos htail]
        exact hsub
      · have hnil : segs.flatMap Segment.tagged = [] :=
          flatMap_tagged_eq_nil_iff.mpr fun b hb => by
            by_contra hne
            exact htail (hwhole b hb hne)
        rw [hnil]
        exact nil_sublist _

theorem pairwise_whole_iff (h : s.Tracks segs) : segs.Pairwise (fun a b => b.records ≠ [] → Whole a.tail) ↔
      ∀ a ∈ s.segments, ∀ r ∈ s.kept, a.1 < r.1 → Whole a.2 := by
  have hwhole : ∀ a ∈ segs, (Whole a.file.2 ↔ Whole a.tail) := fun a ha =>
    whole_append (h.fits a ha) a.tail
  rw [h.files, h.kept]
  constructor
  · intro hpair f hf r hr hlt
    obtain ⟨a, ha, rfl⟩ := mem_map.mp hf
    obtain ⟨b, hb, hrb⟩ := mem_flatMap.mp hr
    have hne : b.records ≠ [] := by
      intro hnil
      simp [Segment.tagged, hnil] at hrb
    rw [Segment.seq_of_mem_tagged hrb] at hlt
    refine (hwhole a ha).mpr ?_
    obtain ⟨i, hi, rfl⟩ := mem_iff_getElem.mp ha
    obtain ⟨j, hj, rfl⟩ := mem_iff_getElem.mp hb
    have hij : i < j := by
      by_contra hji
      obtain hji | rfl := Nat.lt_or_eq_of_le (Nat.le_of_not_lt hji)
      · have := pairwise_iff_getElem.mp h.ascending j i hj hi hji
        exact absurd hlt (by simp only [Segment.file]; omega)
      · exact absurd hlt (Nat.lt_irrefl _)
    exact pairwise_iff_getElem.mp hpair i j hi hj hij hne
  · intro hall
    refine h.ascending.imp_of_mem ?_
    intro a b ha hb hlt hne
    obtain ⟨r, hr⟩ := exists_mem_of_ne_nil _ hne
    exact (hwhole a ha).mp (hall _ (mem_map_of_mem ha) (b.seq, r)
      (mem_flatMap.mpr ⟨b, hb, mem_map_of_mem hr⟩) hlt)

theorem tracks_run {events : List WalEvent} (hfits : ∀ r, WalEvent.append r ∈ events → r.Fits) (h : s.Tracks segs) :
    ∃ segs', (events.foldl Logged.step s).Tracks segs' := by
  induction events generalizing s segs with
  | nil => exact ⟨segs, h⟩
  | cons e events ih =>
    obtain ⟨segs', hstep⟩ := h.step fun r hr => hfits r (hr ▸ mem_cons_self)
    exact ih (fun r hr => hfits r (mem_cons_of_mem _ hr)) hstep

-- Replay hands on every synced record that is left, in order, exactly when no segment before
-- such a record ends in a torn one.
theorem replay_delivers_kept (events : List WalEvent) (hfits : ∀ r, WalEvent.append r ∈ events → r.Fits) :
    (events.foldl Logged.step Logged.fresh).kept.Sublist
        (replay (events.foldl Logged.step Logged.fresh).segments) ↔
      ∀ a ∈ (events.foldl Logged.step Logged.fresh).segments,
        ∀ r ∈ (events.foldl Logged.step Logged.fresh).kept, a.1 < r.1 → Whole a.2 := by
  obtain ⟨segs, htracks⟩ := tracks_run hfits tracks_fresh
  rw [← pairwise_whole_iff htracks, ← sublist_replay_iff htracks.ascending htracks.fits,
    ← htracks.kept, ← htracks.files]

section Scenario

def seriesA : Record := .series 0 [⟨"host", "a"⟩]

def seriesB : Record := .series 1 [⟨"host", "b"⟩]

def seriesC : Record := .series 2 [⟨"host", "c"⟩]

-- The second record is cut off after `n` bytes by a crash; the next process starts a new
-- segment and syncs a third one there.
def tornRun (n : Nat) : List WalEvent :=
  [.open, .append seriesA, .sync, .append seriesB, .crash (seriesB.frame.take n),
    .open, .append seriesC, .sync, .crash []]

end Scenario

theorem replay_delivers_kept_short_tail : (∀ r, WalEvent.append r ∈ tornRun 7 → r.Fits) ∧
      ((tornRun 7).foldl Logged.step Logged.fresh).kept = [(1, seriesA), (2, seriesC)] ∧
      ((tornRun 7).foldl Logged.step Logged.fresh).kept.Sublist
        (replay ((tornRun 7).foldl Logged.step Logged.fresh).segments) := by
  have hfits : ∀ r, WalEvent.append r ∈ tornRun 7 → r.Fits := by
    intro r hr
    have hcases : r = seriesA ∨ r = seriesB ∨ r = seriesC := by simpa [tornRun] using hr
    obtain rfl | rfl | rfl := hcases <;> decide +kernel
  exact ⟨hfits, by decide +kernel, (replay_delivers_kept (tornRun 7) hfits).mpr (by decide +kernel)⟩

-- One byte more of the torn record, and replay ends in the first segment: the record
-- synced after the restart is never handed on.
theorem synced_record_not_replayed :
    ((tornRun 8).foldl Logged.step Logged.fresh).kept = [(1, seriesA), (2, seriesC)] ∧
      replay ((tornRun 8).foldl Logged.step Logged.fresh).segments = [(1, seriesA)] := by
  decide +kernel

end Delivery

end Skaidb.Tsdb
