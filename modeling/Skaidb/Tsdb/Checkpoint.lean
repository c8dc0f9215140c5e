import Skaidb.Tsdb.Store

namespace Skaidb.Tsdb

open Skaidb.Base List Log

variable {old new : List LogSegment}

namespace Log

-- The records that a replay could read if no segment broke off.
def synced (segments : List LogSegment) : List Record := segments.flatMap LogSegment.records

def records (l : Log) : List Record := synced l.segments ++ l.buffered

structure Ok (l : Log) : Prop where
  sorted : l.segments.Pairwise (fun g g' => g.seq < g'.seq)
  last : ∃ init g, l.segments = init ++ [g] ∧ g.seq = l.seq ∧ g.torn = false

theorem synced_append : synced (a ++ b) = synced a ++ synced b := flatMap_append

theorem extendLast_append (records : List Record) (torn : Bool) (init : List LogSegment) (g : LogSegment) :
    extendLast records torn (init ++ [g]) =
      init ++ [{ g with records := g.records ++ records, torn := torn }] := by
  induction init with
  | nil => rfl
  | cons h init ih =>
    cases init with
    | nil => rfl
    | cons h' init => exact congrArg (h :: ·) ih

-- Records were appended: the writer's segment has grown, and others may stand behind it.
structure Grows (l : Log) (rs : List Record) (l' : Log) : Prop where
  ok : l'.Ok
  segments : ∃ init g part more, l.segments = init ++ [g] ∧ g.torn = false ∧
    l'.segments = init ++ { g with records := g.records ++ part } :: more ∧
    (∀ m ∈ more, m.torn = false) ∧ part ++ synced more ++ l'.buffered = l.buffered ++ rs

variable {l l' l'' : Log}

theorem grows_refl (h : l.Ok) : Grows l [] l := by
  obtain ⟨init, g, hg, -, htorn⟩ := h.last
  exact ⟨h, init, g, [], [], hg, htorn, by simp [hg], by simp, by simp [synced]⟩

theorem Grows.trans (h : Grows l rs l') (h' : Grows l' rs' l'') : Grows l (rs ++ rs') l'' := by
  obtain ⟨init, g, part, more, hl, htorn, hl', hmore, hparts⟩ := h.segments
  obtain ⟨init', g', part', more', hl₁, htorn', hl'', hmore', hparts'⟩ := h'.segments
  rw [hl'] at hl₁
  refine ⟨h'.ok, ?_⟩
  -- The segment that grows in the second step is the first one's, or the last behind it.
  obtain rfl | ⟨front, m, rfl⟩ := eq_nil_or_concat' more
  · obtain ⟨rfl, heq⟩ := append_inj' hl₁ rfl
    obtain rfl := (List.cons.inj heq).1
    refine ⟨init, g, part ++ part', more', hl, htorn, by simp [hl''], hmore', ?_⟩
    rw [← append_assoc l.buffered, ← hparts]
    simp only [synced, flatMap_nil, append_nil, append_assoc] at hparts' ⊢
    rw [hparts']
  · rw [← cons_append, ← append_assoc] at hl₁
    obtain ⟨rfl, heq⟩ := append_inj' hl₁ rfl
    obtain rfl := (List.cons.inj heq).1
    refine ⟨init, g, part, front ++ { m with records := m.records ++ part' } :: more', hl, htorn,
      by simp [hl''], ?_, ?_⟩
    · intro m' hm'
      obtain hm' | hm' := mem_append.mp hm'
      · exact hmore m' (mem_append_left _ hm')
      · obtain rfl | hm' := mem_cons.mp hm'
        · exact htorn'
        · exact hmore' m' hm'
    · rw [← append_assoc l.buffered, ← hparts]
      simp only [synced, flatMap_append, flatMap_cons, flatMap_nil, append_nil,
        append_assoc] at hparts' ⊢
      rw [hparts']

theorem Grows.records_eq (h : Grows l rs l') : l'.records = l.records ++ rs := by
  obtain ⟨init, g, part, more, hl, -, hl', -, hparts⟩ := h.segments
  rw [records, records, hl, hl', append_assoc, ← hparts]
  simp [synced]

theorem grows_buffer (h : l.Ok) : Grows l [r] (l.buffer r) := by
  obtain ⟨init, g, hg, hseq, htorn⟩ := h.last
  exact ⟨⟨h.sorted, h.last⟩, init, g, [], [], hg, htorn, by simp [buffer, hg], by simp, by simp [synced, buffer]⟩

theorem grows_sync (h : l.Ok) : Grows l [] l.sync := by
  obtain ⟨init, g, hg, hseq, htorn⟩ := h.last
  have hsegments : l.sync.segments = init ++ [{ g with records := g.records ++ l.buffered }] := by
    rw [sync, hg, extendLast_append, ← htorn]
  refine ⟨⟨?_, init, _, hsegments, hseq, htorn⟩, init, g, l.buffered, [], hg, htorn, hsegments, by simp,
    by simp [synced, sync]⟩
  have hsorted := h.sorted
  rw [hg, pairwise_append] at hsorted
  rw [hsegments, pairwise_append]
  exact ⟨hsorted.1, pairwise_singleton _ _, fun a ha b hb => by
    rw [mem_singleton.mp hb]
    exact hsorted.2.2 a ha g (mem_singleton_self g)⟩

theorem Ok.le_seq (h : l.Ok) : ∀ g ∈ l.segments, g.seq ≤ l.seq := by
  obtain ⟨init, g, hg, hseq, -⟩ := h.last
  have hsorted := h.sorted
  rw [hg] at hsorted ⊢
  intro m hm
  obtain hm | hm := mem_append.mp hm
  · exact ((pairwise_append.mp hsorted).2.2 m hm g (mem_singleton_self g)).le.trans hseq.le
  · rw [mem_singleton.mp hm, hseq]

theorem ok_newSegment {segments : List LogSegment} {seq : Nat}
    (hsorted : segments.Pairwise (fun g g' => g.seq < g'.seq)) (hbelow : ∀ g ∈ segments, g.seq < seq) :
    (newSegment segments seq).Ok := by
  refine ⟨?_, segments, _, rfl, rfl, rfl⟩
  rw [newSegment, pairwise_append]
  exact ⟨hsorted, pairwise_singleton _ _, fun a ha b hb => by
    rw [mem_singleton.mp hb]
    exact hbelow a ha⟩

theorem grows_newSegment (h : l.Ok) (hsynced : l.buffered = []) :
    Grows l [] (newSegment l.segments (l.seq + 1)) := by
  obtain ⟨init, g, hg, hseq, htorn⟩ := h.last
  refine ⟨ok_newSegment h.sorted fun m hm => Nat.lt_succ_of_le (h.le_seq m hm), init, g, [],
    [⟨l.seq + 1, [], false⟩], hg, htorn, ?_, by simp, by simp [synced, newSegment, hsynced]⟩
  simp [newSegment, hg]

theorem Ok.drop (h : l.Ok) (hsegments : l.segments = old ++ new) (hne : new ≠ [])
    (i : Nat) : Ok { l with segments := old.drop i ++ new } := by
  obtain ⟨init, g, hlast, hseq, htorn⟩ := h.last
  have hsorted := h.sorted
  rw [hsegments] at hsorted hlast
  obtain hnil | ⟨front, m, rfl⟩ := eq_nil_or_concat' new
  · exact absurd hnil hne
  · rw [← append_assoc] at hlast
    obtain rfl := (List.cons.inj (append_inj' hlast rfl).2).1
    exact ⟨hsorted.sublist ((drop_sublist i old).append_right _), old.drop i ++ front, m, by simp, hseq, htorn⟩

theorem Grows.segments_new (h : Grows (newSegment old keep) rs l) (hsynced : l.buffered = []) :
    ∃ new, l.segments = old ++ new ∧ synced new = rs ∧ (∀ g ∈ new, g.torn = false) ∧
      ∃ g rest, new = g :: rest ∧ g.seq = keep := by
  obtain ⟨init, g, part, more, hinit, htorn, hsegments, hmore, hparts⟩ := h.segments
  obtain ⟨rfl, hg⟩ := append_inj' (show old ++ [⟨keep, [], false⟩] = init ++ [g] from hinit) rfl
  obtain rfl := (List.cons.inj hg).1
  refine ⟨_, hsegments, ?_, forall_mem_cons.mpr ⟨rfl, hmore⟩, _, _, rfl, rfl⟩
  rw [hsynced, append_nil] at hparts
  simpa [synced, newSegment] using hparts

end Log

namespace Store

variable {s s' s'' : Store} {rs rs' : List Record}

def Logs (s : Store) (rs : List Record) (s' : Store) : Prop :=
  ∃ l trail, s' = { s with files := { s.files with log := l }, past := s.past ++ trail } ∧
    s.files.log.Grows rs l ∧
    ∀ f ∈ trail, f.dirs = s.files.dirs ∧ ∃ part, part <+: rs ∧ s.files.log.Grows part f.log

theorem Logs.trans (h : Logs s rs s') (h' : Logs s' rs' s'') : Logs s (rs ++ rs') s'' := by
  obtain ⟨l, trail, rfl, hl, htrail⟩ := h
  obtain ⟨l', trail', rfl, hl', htrail'⟩ := h'
  refine ⟨l', trail ++ trail', by simp, hl.trans hl', fun f hf => ?_⟩
  obtain hf | hf := mem_append.mp hf
  · obtain ⟨hdirs, part, hpart, hgrows⟩ := htrail f hf
    exact ⟨hdirs, part, hpart.trans (prefix_append _ _), hgrows⟩
  · obtain ⟨hdirs, part, hpart, hgrows⟩ := htrail' f hf
    exact ⟨hdirs, rs ++ part, (prefix_append_right_inj _).mpr hpart, hl.trans hgrows⟩

theorem logs_refl (h : s.files.log.Ok) : Logs s [] s :=
  ⟨s.files.log, [], by simp, grows_refl h, by simp⟩

theorem Logs.ok (h : Logs s rs s') : s'.files.log.Ok := by
  obtain ⟨l, trail, rfl, hl, -⟩ := h
  exact hl.ok

section

variable (h : s.files.log.Ok)

include h

theorem logs_write (hop : s.files.log.Grows rs (op s.files.log)) : Logs s rs (s.write (Files.onLog op)) := by
  refine ⟨op s.files.log, [s.files], rfl, hop, fun f hf => ?_⟩
  obtain rfl := mem_singleton.mp hf
  exact ⟨rfl, [], nil_prefix, grows_refl h⟩

theorem logs_logSync : Logs s [] s.logSync := logs_write h (grows_sync h)

theorem logs_logNewSegment : Logs s [] s.logNewSegment := by
  have hsync := logs_logSync h
  exact hsync.trans (logs_write hsync.ok (grows_newSegment hsync.ok rfl))

theorem logs_logAppend (r : Record) : Logs s [r] (s.logAppend r) := by
  have hbuffer : Logs s [r] (s.write (Files.onLog (fun l => l.buffer r))) := logs_write h (grows_buffer h)
  unfold logAppend
  simp only
  split_ifs
  · exact hbuffer.trans (logs_logNewSegment hbuffer.ok)
  · exact hbuffer

theorem logs_foldl (rs : List Record) : Logs s rs (rs.foldl logAppend s) := by
  induction rs generalizing s with
  | nil => exact logs_refl h
  | cons r rs ih =>
    have hr := logs_logAppend h r
    exact hr.trans (ih hr.ok)

end

section Checkpoints

def dropOldest (f : Files) (n : Nat) : Files :=
  { f with log := { f.log with segments := f.log.segments.drop n } }

theorem foldl_removeOldest {α : Type} (xs : List α) (s : Store) :
    ∃ trail, xs.foldl (fun s _ => s.write (Files.onLog Log.removeOldest)) s =
        { s with files := dropOldest s.files xs.length, past := s.past ++ trail } ∧
      ∀ f ∈ trail, ∃ i ≤ xs.length, f = dropOldest s.files i := by
  induction xs generalizing s with
  | nil => exact ⟨[], by simp [dropOldest], by simp⟩
  | cons x xs ih =>
    obtain ⟨trail, heq, htrail⟩ := ih (s.write (Files.onLog removeOldest))
    have hdrop : ∀ i, dropOldest (s.write (Files.onLog removeOldest)).files i = dropOldest s.files (i + 1) := by
      intro i
      simp [dropOldest, write, Files.onLog, removeOldest]
    refine ⟨s.files :: trail, ?_, fun f hf => ?_⟩
    · rw [foldl_cons, heq, hdrop]
      simp [write]
    · obtain rfl | hf := mem_cons.mp hf
      · exact ⟨0, Nat.zero_le _, by simp [dropOldest]⟩
      · obtain ⟨i, hi, rfl⟩ := htrail f hf
        exact ⟨i + 1, Nat.succ_le_succ hi, hdrop i⟩

-- What a checkpoint writes and removes: first its records go behind the old segments, then
-- these go one by one.
structure Checkpointed (s : Store) (rs : List Record) (old new : List LogSegment) (s' : Store) : Prop where
  store : s' = { s with files := { s.files with log := s'.files.log }, past := s'.past }
  ok : s'.files.log.Ok
  segments : s'.files.log.segments = new
  buffered : s'.files.log.buffered = []
  old_records : Log.synced old = s.files.log.records
  old_torn : (∀ g ∈ s.files.log.segments, g.torn = false) → ∀ g ∈ old, g.torn = false
  new_records : Log.synced new = rs
  new_torn : ∀ g ∈ new, g.torn = false
  past : ∀ f ∈ s'.past, f ∈ s.past ∨ f.dirs = s.files.dirs ∧
    ((∃ part, part <+: rs ∧ s.files.log.Grows part f.log) ∨
      ∃ i, f.log.Ok ∧ f.log.segments = old.drop i ++ new ∧ f.log.buffered = [])

theorem Checkpointed.head (h : Checkpointed s rs old new s') : s'.head = s.head := by
  rw [h.store]

theorem truncateBefore_spec (hlog : s.files.log.segments = old ++ new) (hold : ∀ g ∈ old, g.seq < keep)
    (hnew : ∃ g rest, new = g :: rest ∧ g.seq = keep) :
    ∃ trail, s.truncateBefore keep =
        { s with files := { s.files with log := { s.files.log with segments := new } }, past := s.past ++ trail } ∧
      ∀ f ∈ trail, ∃ i, f = { s.files with log := { s.files.log with segments := old.drop i ++ new } } := by
  have htake : s.files.log.segments.takeWhile (fun g => g.seq < keep) = old := by
    obtain ⟨g, rest, rfl, hg⟩ := hnew
    rw [hlog, takeWhile_append_of_pos fun g hg => decide_eq_true (hold g hg),
      takeWhile_cons_of_neg (by simp [hg]), append_nil]
  obtain ⟨trail, heq, htrail⟩ := foldl_removeOldest old s
  refine ⟨trail, ?_, fun f hf => ?_⟩
  · rw [truncateBefore, htake, heq, dropOldest, hlog, drop_left]
  · obtain ⟨i, hi, rfl⟩ := htrail f hf
    exact ⟨i, by rw [dropOldest, hlog, drop_append_of_le_length hi]⟩

theorem checkpoint_spec (h : s.files.log.Ok) {boundary : Int64} :
    ∃ old new, Checkpointed s (checkpointRecords s.head boundary) old new (s.checkpoint boundary) := by
  have hsync := grows_sync h
  have hfirst := logs_logNewSegment h
  set rs := checkpointRecords s.head boundary
  have happend := logs_foldl hfirst.ok rs
  have hsecond := happend.trans (logs_logSync happend.ok)
  set s₂ := (rs.foldl logAppend s.logNewSegment).logSync with hs₂
  rw [append_nil] at hsecond
  obtain ⟨new, hsegments, hrecords, htorn, hkeep⟩ : ∃ new, s₂.files.log.segments = s.files.log.sync.segments ++ new ∧
      synced new = rs ∧ (∀ g ∈ new, g.torn = false) ∧
        ∃ g rest, new = g :: rest ∧ g.seq = s.files.log.seq + 1 := by
    obtain ⟨l, trail, heq, hl, -⟩ := hsecond
    have hbuffered : l.buffered = [] := congrArg (fun s => s.files.log.buffered) heq.symm
    rw [heq]
    exact hl.segments_new hbuffered
  have hbelow : ∀ g ∈ s.files.log.sync.segments, g.seq < s.files.log.seq + 1 :=
    fun g hg => Nat.lt_succ_of_le (hsync.ok.le_seq g hg)
  obtain ⟨trail, htruncate, htrail⟩ := truncateBefore_spec hsegments hbelow hkeep
  have heq : s.checkpoint boundary = s₂.truncateBefore (s.files.log.seq + 1) := rfl
  rw [htruncate] at heq
  refine ⟨s.files.log.sync.segments, new, ?_⟩
  rw [heq]
  have hall := hfirst.trans hsecond
  have hok₂ := hall.ok
  have hne : new ≠ [] := by
    obtain ⟨g, rest, rfl, -⟩ := hkeep
    exact cons_ne_nil g rest
  have hbuffered : s₂.files.log.buffered = [] := rfl
  obtain ⟨l, trail₂, hs₂', hl, htrail₂⟩ := hall
  refine ⟨?_, ?_, rfl, hbuffered, ?_, ?_, hrecords, htorn, ?_⟩
  · rw [hs₂']
  · have hok := hok₂.drop hsegments hne s.files.log.sync.segments.length
    rwa [drop_length, nil_append] at hok
  · have hrecs := hsync.records_eq
    rw [append_nil, records, show s.files.log.sync.buffered = [] from rfl, append_nil] at hrecs
    exact hrecs
  · intro hall
    obtain ⟨init, g, part, more, hsegs, hgtorn, hsegs', hmore, -⟩ := hsync.segments
    rw [hsegs']
    rw [hsegs] at hall
    intro m hm
    obtain hm | hm := mem_append.mp hm
    · exact hall m (mem_append_left _ hm)
    · obtain rfl | hm := mem_cons.mp hm
      · exact hgtorn
      · exact hmore m hm
  · intro f hf
    obtain hf | hf := mem_append.mp hf
    · rw [hs₂'] at hf
      obtain hf | hf := mem_append.mp hf
      · exact .inl hf
      · obtain ⟨hdirs, hpart⟩ := htrail₂ f hf
        exact .inr ⟨hdirs, .inl hpart⟩
    · obtain ⟨i, rfl⟩ := htrail f hf
      exact .inr ⟨by rw [hs₂'], .inr ⟨i, hok₂.drop hsegments hne i, rfl, hbuffered⟩⟩

end Checkpoints

end Store

end Skaidb.Tsdb
