import Skaidb.Tsdb.Checkpoint
import Skaidb.Tsdb.Runs
import Skaidb.Tsdb.Upkeep

namespace Skaidb.Tsdb

open Skaidb.Base List OrdMap Option Head SeriesEntry Store Log

section Names

def Record.naming : Record → Option (Nat × Labels)
  | .series id labels => some (id, labels)
  | .samples _ => none

-- The labels that the records give to an id: those of the last series record with it.
def nameOf (records : List Record) (id : Nat) : Option Labels :=
  (lastHeld Prod.fst (records.filterMap Record.naming) id).map Prod.snd

theorem nameOf_append (a b : List Record) (id : Nat) : nameOf (a ++ b) id = (nameOf b id).or (nameOf a id) := by
  rw [nameOf, filterMap_append, lastHeld_append, map_or]
  rfl

theorem nameOf_series (i : Nat) (labels : Labels) (id : Nat) :
    nameOf [.series i labels] id = if i = id then some labels else none := by
  have hnaming : [Record.series i labels].filterMap Record.naming = [(i, labels)] := rfl
  rw [nameOf, hnaming, lastHeld_singleton]
  split_ifs <;> rfl

theorem nameOf_samples {batch : List (Nat × Sample)} {id : Nat} : nameOf [.samples batch] id = none := rfl

-- Every sample record that follows a name for its id is of a row with these labels.
def Attributes (rows : Set (Labels × Sample)) (records : List Record) : Prop :=
  ∀ pre batch post, records = pre ++ .samples batch :: post →
    ∀ s ∈ batch, ∀ labels, nameOf pre s.1 = some labels → (labels, s.2) ∈ rows

variable {a b records : List Record}

theorem attributes_nil : Attributes rows [] := by
  intro pre batch post h
  simp at h

theorem Attributes.mono (h : Attributes rows records) (hsub : rows ⊆ rows') : Attributes rows' records :=
  fun pre batch post heq s hs labels hname => hsub (h pre batch post heq s hs labels hname)

theorem Attributes.left (h : Attributes rows (a ++ b)) : Attributes rows a :=
  fun pre batch post heq => h pre batch (post ++ b) (by simp [heq])

theorem Attributes.right (h : Attributes rows (a ++ b)) : Attributes rows b := by
  intro pre batch post heq s hs labels hname
  refine h (a ++ pre) batch post (by simp [heq]) s hs labels ?_
  rw [nameOf_append, hname]
  rfl

theorem Attributes.snoc (h : Attributes rows a)
    (hr : ∀ batch, r = .samples batch → ∀ s ∈ batch, ∀ labels, nameOf a s.1 = some labels → (labels, s.2) ∈ rows) :
    Attributes rows (a ++ [r]) := by
  intro pre batch post heq
  obtain rfl | ⟨post, last, rfl⟩ := eq_nil_or_concat' post
  · obtain ⟨rfl, hlast⟩ := append_inj' heq rfl
    exact hr batch (List.cons.inj hlast).1
  · have heq' : a ++ [r] = (pre ++ .samples batch :: post) ++ [last] := by simpa using heq
    exact h pre batch post (append_inj' heq' rfl).1

theorem Attributes.append_series (h : Attributes rows a)
    (hseries : ∀ r ∈ series, ∀ batch, r ≠ .samples batch) : Attributes rows (a ++ series) := by
  induction series generalizing a with
  | nil => rwa [append_nil]
  | cons r series ih =>
    obtain ⟨hr, hseries⟩ := forall_mem_cons.mp hseries
    rw [← singleton_append, ← append_assoc]
    exact ih (h.snoc fun batch heq => absurd heq (hr batch)) hseries

end Names

variable {span : Int64}

section Heads

def Within (rows : Set (Labels × Sample)) (pieces : Pieces) : Prop :=
  ∀ labels, ∀ x ∈ OrdMap.under pieces labels, (labels, x) ∈ rows

theorem Within.mono (h : Within rows p) (hsub : rows ⊆ rows') : Within rows' p :=
  fun labels x hx => hsub (h labels x hx)

theorem Within.of_subset {p q : Pieces} (h : Within rows p)
    (hsub : ∀ labels, under q labels ⊆ under p labels) : Within rows q :=
  fun labels x hx => h labels x (hsub labels hx)

theorem within_flatMap {blocks : List Block} :
    Within rows (blocks.flatMap Block.pieces) ↔ ∀ b ∈ blocks, Within rows b.pieces := by
  constructor
  · intro h b hb labels x hx
    obtain ⟨piece, hpiece, hin⟩ := mem_under.mp hx
    exact h labels x (mem_under.mpr ⟨piece, mem_flatMap.mpr ⟨b, hb, hpiece⟩, hin⟩)
  · intro h labels x hx
    obtain ⟨piece, hpiece, hin⟩ := mem_under.mp hx
    obtain ⟨b, hb, hpiece⟩ := mem_flatMap.mp hpiece
    exact h b hb labels x (mem_under.mpr ⟨piece, hpiece, hin⟩)

variable {h h' : Head} {id : Nat} {labels : Labels}

theorem within_new : Within rows new.pieces := by
  intro labels x hx
  simp [Head.new, Head.pieces, Head.perSeries, under] at hx

theorem Within.create (hw : Within rows h.pieces) (labels : Labels) : Within rows (h.create labels).pieces := by
  have hpieces : (h.create labels).pieces = h.pieces ++ [(labels, [])] := by
    simp [Head.pieces, Head.perSeries, Head.create, SeriesEntry.fresh, SeriesEntry.contents, SeriesEntry.openSamples]
  refine hw.of_subset fun l => ?_
  rw [hpieces, under_append]
  by_cases heq : labels = l <;> simp [under, heq]

theorem Within.getOrCreate (hw : Within rows h.pieces)
    (hget : h.getOrCreate labels maxSeries = .ok (h', id, created)) : Within rows h'.pieces := by
  obtain ⟨-, rfl, -⟩ | ⟨-, -, rfl, -⟩ := getOrCreate_cases hget
  · exact hw
  · exact hw.create labels

theorem Within.append (hs : h.Sound) (hw : Within rows h.pieces) {e : SeriesEntry}
    (he : h.entry id = some e) (hrow : (e.labels, s) ∈ rows)
    (happend : h.append id s span oooWindow = .ok h') : Within rows h'.pieces := by
  intro labels x hx
  obtain ⟨i, e', he', rfl, hin⟩ := (hs.append happend).mem_under_iff.mp hx
  obtain ⟨e₀, e₁, he₀, hentry, hall⟩ := entry_append happend
  obtain rfl : e = e₀ := some.inj (he.symm.trans he₀)
  rw [hall] at he'
  split_ifs at he' with hid
  · obtain rfl := some.inj he'
    rw [append_labels hentry]
    obtain rfl | hin := mem_append_contents hentry hin
    · exact hrow
    · exact hw e.labels x (hs.mem_under_iff.mpr ⟨id, e, he, rfl, hin⟩)
  · exact hw e'.labels x (hs.mem_under_iff.mpr ⟨i, e', he', rfl, hin⟩)

end Heads

section Replay

structure Replayed (rows : Set (Labels × Sample)) (records : List Record) (r : Replaying) : Prop where
  sound : r.head.Sound
  within : Within rows r.head.pieces
  ids : ∀ id headId, r.idMap.get? id = some headId →
    ∃ e, r.head.entry headId = some e ∧ nameOf records id = some e.labels

theorem replayed_nil : Replayed rows [] ⟨new, .empty⟩ :=
  ⟨sound_new, within_new, by simp⟩

variable {flushedThrough : Int64} {records : List Record}

section

variable (h : Replayed rows records r)

include h

theorem Replayed.sample (hs : ∀ labels, nameOf records s.1 = some labels → (labels, s.2) ∈ rows) :
    Replayed rows records (replaySample o flushedThrough r s) := by
  unfold replaySample
  split_ifs
  · exact h
  · split
    case h_1 => exact h
    case h_2 headId hid =>
      split
      case h_2 => exact h
      case h_1 head happend =>
        obtain ⟨e, he, hname⟩ := h.ids s.1 headId hid
        refine ⟨h.sound.append happend, h.within.append h.sound he (hs _ hname) happend, fun id i hi => ?_⟩
        obtain ⟨e', he', hname'⟩ := h.ids id i hi
        obtain ⟨e₀, e₁, he₀, hentry, hall⟩ := entry_append happend
        simp only [hall]
        by_cases heq : i = headId
        · subst heq
          obtain rfl : e' = e₀ := some.inj (he'.symm.trans he₀)
          exact ⟨e₁, by simp, by rw [append_labels hentry]; exact hname'⟩
        · exact ⟨e', by rw [if_neg heq]; exact he', hname'⟩

theorem Replayed.batch {batch : List (Nat × Sample)}
    (hbatch : ∀ s ∈ batch, ∀ labels, nameOf records s.1 = some labels → (labels, s.2) ∈ rows) :
    Replayed rows records (batch.foldl (replaySample o flushedThrough) r) := by
  induction batch generalizing r with
  | nil => exact h
  | cons s batch ih =>
    obtain ⟨hs, hbatch⟩ := forall_mem_cons.mp hbatch
    exact ih (h.sample hs) hbatch

theorem Replayed.series (id : Nat) (labels : Labels) :
    Replayed rows (records ++ [.series id labels]) (replayRecord o flushedThrough r (.series id labels)) := by
  obtain ⟨head, headId, created, hget⟩ : ∃ head headId created,
      r.head.getOrCreate labels none = .ok (head, headId, created) := by
    unfold getOrCreate
    split
    · exact ⟨_, _, _, rfl⟩
    · exact ⟨_, _, _, rfl⟩
  obtain ⟨hsound, e, he, hlabels⟩ := h.sound.getOrCreate hget
  rw [replayRecord, hget]
  refine ⟨hsound, h.within.getOrCreate hget, fun i headId' hi => ?_⟩
  rw [OrdMap.get?_insert] at hi
  rw [nameOf_append, nameOf_series]
  split_ifs at hi with heq
  · obtain rfl := some.inj hi
    exact ⟨e, he, by rw [if_pos heq.symm, hlabels]; rfl⟩
  · obtain ⟨e', he', hname⟩ := h.ids i headId' hi
    exact ⟨e', entry_getOrCreate hget he', by rw [if_neg (Ne.symm heq)]; exact hname⟩

theorem Replayed.foldl {more : List Record} (hmore : Attributes rows (records ++ more)) :
    Replayed rows (records ++ more) (more.foldl (replayRecord o flushedThrough) r) := by
  induction more generalizing records r with
  | nil => rwa [append_nil]
  | cons m more ih =>
    rw [← singleton_append, ← append_assoc] at hmore ⊢
    refine ih ?_ hmore
    cases m with
    | series id labels => exact h.series id labels
    | samples batch =>
      have hbatch : Replayed rows records (replayRecord o flushedThrough r (.samples batch)) :=
        h.batch (hmore records batch more (by simp))
      refine ⟨hbatch.sound, hbatch.within, fun id headId hid => ?_⟩
      rw [nameOf_append, nameOf_samples]
      exact hbatch.ids id headId hid

end

theorem rebuildHead_spec (h : Attributes rows records) :
    (rebuildHead o flushedThrough records).Sound ∧ Within rows (rebuildHead o flushedThrough records).pieces := by
  have hreplayed : Replayed rows records (records.foldl (replayRecord o flushedThrough) ⟨new, .empty⟩) :=
    replayed_nil.foldl h
  exact ⟨hreplayed.sound, hreplayed.within⟩

end Replay

section Stores

structure Files.Faithful (rows : Set (Labels × Sample)) (f : Files) : Prop where
  blocks : ∀ b ∈ f.blocks, b.Sound ∧ Within rows b.pieces
  seqs : (f.blocks.map Block.seq).Nodup
  ok : f.log.Ok
  log : Attributes rows f.log.records

theorem Files.Faithful.withLog {f f' : Files} (h : f.Faithful rows) (hdirs : f'.dirs = f.dirs)
    (hok : f'.log.Ok) (hattr : Attributes rows f'.log.records) : f'.Faithful rows := by
  have hblocks : f'.blocks = f.blocks := congrArg (List.map BlockDir.block) hdirs
  exact ⟨hblocks ▸ h.blocks, hblocks ▸ h.seqs, hok, hattr⟩

theorem Files.Faithful.rearranged {f f' : Files} (h : f.Faithful rows)
    (hwritten : ∀ b ∈ written, b.Sound ∧ Within rows b.pieces)
    (hnodup : ((f.blocks ++ written).map Block.seq).Nodup) (hlog : f'.log = f.log)
    (hsub : f'.blocks.Sublist (f.blocks ++ written)) : f'.Faithful rows := by
  refine ⟨fun b hb => ?_, hnodup.sublist (hsub.map Block.seq), hlog ▸ h.ok, hlog ▸ h.log⟩
  obtain hb | hb := mem_append.mp (hsub.mem hb)
  · exact h.blocks b hb
  · exact hwritten b hb

namespace Store

structure Faithful (rows : Set (Labels × Sample)) (s : Store) : Prop where
  head : s.head.Sound
  within : Within rows s.head.pieces
  filed : s.Filed
  files : s.files.Faithful rows
  past : ∀ f ∈ s.past, f.Faithful rows

variable {s s' : Store}

theorem Faithful.blocks (h : s.Faithful rows) : ∀ b ∈ s.blocks, b.Sound ∧ Within rows b.pieces :=
  fun b hb => h.files.blocks b (h.filed.dirs.mem_iff.mpr hb)

theorem Faithful.sound (h : s.Faithful rows) : s.Sound := ⟨h.head, fun b hb => (h.blocks b hb).1⟩

variable {head : Head}

section

variable (h : s.Faithful rows)

include h

theorem Faithful.withHead (hs : head.Sound) (hw : Within rows head.pieces) :
    Faithful rows { s with head := head } :=
  ⟨hs, hw, { h.filed with }, h.files, h.past⟩

theorem Faithful.round (hr : Round s c rest written s') : s'.Faithful rows := by
  have hinputs : Within rows (c.inputs.flatMap Block.pieces) :=
    within_flatMap.mpr fun b hb => (h.blocks b (hr.inputs_sublist.mem hb)).2
  have hwritten := within_flatMap.mp (hinputs.of_subset hr.replaces.subset)
  have hfiles : ∀ {f}, Rearranged s.files c.inputs written f → f.Faithful rows := fun hf =>
    h.files.rearranged (fun b hb => ⟨hr.replaces.sound b hb, hwritten b hb⟩) (hr.nodup_all h.filed) hf.log hf.sublist
  refine ⟨hr.head ▸ h.head, hr.head ▸ h.within, hr.filed h.filed, hfiles (hr.rearranged_end h.filed), fun f hf => ?_⟩
  obtain hf | hf := hr.rearranged_past h.filed f hf
  · exact h.past f hf
  · exact hfiles hf

theorem Faithful.compactLocked (o : TsdbOptions) : (s.compactLocked o).Faithful rows := by
  have hclock : Faithful rows { s with clock := s.clock.tail } :=
    { h with filed := { h.filed with } }
  exact (compactRounds_induction o (fun _ _ hp hr => hp.round hr) _ hclock.sound hclock.filed hclock).2.2

theorem Faithful.expire (o : TsdbOptions) : (s.expire o).Faithful rows := by
  have hx := expire_spec h.filed o
  have hhead := hx.head
  have hlog := hx.log
  refine ⟨hhead ▸ h.head, hhead ▸ h.within, hx.filed, ?_, fun f hf => ?_⟩
  · refine ⟨fun b hb => h.blocks b (hx.blocks.mem (hx.filed.dirs.mem_iff.mp hb)),
      (hx.filed.dirs.map Block.seq).nodup_iff.mpr hx.filed.seqs, hlog ▸ h.files.ok, hlog ▸ h.files.log⟩
  · obtain hf | ⟨hlog, hsub⟩ := hx.past f hf
    · exact h.past f hf
    · exact ⟨fun b hb => h.files.blocks b (hsub.mem hb), h.files.seqs.sublist (hsub.map Block.seq),
        hlog ▸ h.files.ok, hlog ▸ h.files.log⟩

theorem Faithful.addBlock (level : Nat) {series : FlushedSeries} (hseries : SeriesSound series)
    (hw : Within rows (seriesPieces series)) {labels : Labels} (hx : x ∈ under (seriesPieces series) labels) :
    (s.addBlock level series).Faithful rows := by
  have hnew : ∀ b ∈ [writeBlock s.nextBlockSeq level series], b.Sound ∧ Within rows b.pieces := by
    intro b hb
    rw [mem_singleton.mp hb]
    exact ⟨sound_writeBlock hseries hx, fun labels y hy => hw labels y (under_writeBlock ▸ hy)⟩
  have hnodup := ((h.filed.dirs.append_right _).map Block.seq).nodup_iff.mpr
    (h.filed.nodup_append [writeBlock s.nextBlockSeq level series] rfl)
  have hfiled := h.filed.addBlock level series
  rw [addBlock_eq h.filed] at hfiled ⊢
  refine ⟨h.head, h.within, hfiled, h.files.rearranged hnew hnodup rfl (Files.blocks_addDirs _ _ ▸ .refl _),
    fun f hf => ?_⟩
  obtain hf | hf := mem_append.mp hf
  · exact h.past f hf
  · rw [mem_singleton.mp hf]
    exact h.files

end

section Checkpoints

theorem nameOf_liveSeries (h : Head) (id : Nat) :
    nameOf (h.liveSeries.map (fun s => Record.series s.1 s.2)) id = (h.entry id).map labels := by
  have hnamings : (h.liveSeries.map (fun s => Record.series s.1 s.2)).filterMap Record.naming = h.liveSeries := by
    rw [filterMap_map]
    exact filterMap_some
  rw [nameOf, hnamings]
  cases hlast : lastHeld Prod.fst h.liveSeries id with
  | none =>
    cases he : h.entry id with
    | none => rfl
    | some e => exact absurd rfl (lastHeld_eq_none_iff.mp hlast (id, e.labels) (mem_liveSeries.mpr ⟨e, he, rfl⟩))
  | some p =>
    obtain ⟨hmem, rfl⟩ := mem_of_lastHeld hlast
    obtain ⟨e, he, hlabels⟩ := mem_liveSeries.mp hmem
    rw [he]
    exact congrArg some hlabels.symm

theorem nameOf_checkpointRecords {h : Head} {boundary : Int64} {id : Nat} :
    nameOf (checkpointRecords h boundary) id = (h.entry id).map labels := by
  unfold checkpointRecords
  rw [nameOf_append, nameOf_liveSeries]
  split_ifs
  · rfl
  · rfl

theorem attributes_checkpoint {records : List Record} (ha : Attributes rows records) (hs : s.head.Sound)
    (hw : Within rows s.head.pieces) : Attributes rows (records ++ checkpointRecords s.head boundary) := by
  have hseries : Attributes rows (records ++ s.head.liveSeries.map (fun s => Record.series s.1 s.2)) := by
    refine ha.append_series fun r hr batch heq => ?_
    obtain ⟨p, -, rfl⟩ := mem_map.mp hr
    cases heq
  unfold checkpointRecords
  rw [← append_assoc]
  split_ifs with hnil
  · rwa [append_nil]
  · refine hseries.snoc ?_
    rintro batch hbatch ⟨id, x⟩ hmem labels hname
    obtain rfl := Record.samples.inj hbatch
    obtain ⟨⟨i, l⟩, hlive, hmem⟩ := mem_flatMap.mp hmem
    obtain ⟨y, hy, heq⟩ := mem_map.mp hmem
    obtain ⟨rfl, rfl⟩ := Prod.mk.inj heq
    obtain ⟨e, he, rfl⟩ := mem_liveSeries.mp hlive
    rw [nameOf_append, nameOf_liveSeries, he] at hname
    obtain rfl := some.inj hname
    rw [he] at hy
    exact hw e.labels y (hs.mem_under_iff.mpr ⟨i, e, he, rfl, (mem_samples (hs.entries he) hy).1⟩)

theorem Faithful.checkpoint (h : s.Faithful rows) (boundary : Int64) : (s.checkpoint boundary).Faithful rows ∧
      (s.checkpoint boundary).files.log.records = checkpointRecords s.head boundary := by
  obtain ⟨old, new, hc⟩ := checkpoint_spec h.files.ok
  have hrecords : (s.checkpoint boundary).files.log.records = checkpointRecords s.head boundary := by
    rw [records, hc.segments, hc.buffered, append_nil, hc.new_records]
  refine ⟨⟨by rw [hc.store]; exact h.head, by rw [hc.store]; exact h.within, ?_, ?_, fun f hf => ?_⟩, hrecords⟩
  · rw [hc.store]
    exact { h.filed with }
  · refine h.files.withLog (by rw [hc.store]) hc.ok ?_
    rw [hrecords]
    exact (attributes_checkpoint h.files.log h.head h.within).right
  · obtain hf | ⟨hdirs, ⟨part, hpart, hgrows⟩ | ⟨i, hok, hsegments, hbuffered⟩⟩ := hc.past f hf
    · exact h.past f hf
    · refine h.files.withLog hdirs hgrows.ok ?_
      rw [hgrows.records_eq]
      obtain ⟨post, hpost⟩ := hpart
      have hall : Attributes rows (s.files.log.records ++ checkpointRecords s.head boundary) :=
        attributes_checkpoint h.files.log h.head h.within
      rw [← hpost, ← append_assoc] at hall
      exact hall.left
    · refine h.files.withLog hdirs hok ?_
      rw [records, hsegments, hbuffered, append_nil, synced_append, hc.new_records]
      refine attributes_checkpoint ?_ h.head h.within
      have hold := h.files.log
      rw [← hc.old_records, ← take_append_drop i old, synced_append] at hold
      exact hold.right

end Checkpoints

section Flushes

variable {o : TsdbOptions}

theorem compactLocked_frame (hs : s.Sound) (hf : s.Filed) :
    (s.compactLocked o).head = s.head ∧ (s.compactLocked o).files.log = s.files.log := by
  have hclock : Sound { s with clock := s.clock.tail } := ⟨hs.head, hs.blocks⟩
  have hfiled : Filed { s with clock := s.clock.tail } := { hf with }
  exact (compactRounds_induction (p := fun s' : Store => s'.head = s.head ∧ s'.files.log = s.files.log) o
    (fun _ _ hp hr => ⟨hr.head.trans hp.1, hr.log.trans hp.2⟩) _ hclock hfiled ⟨rfl, rfl⟩).2.2

theorem Faithful.moveToBlock (h : s.Faithful rows) {flushed : FlushedSeries}
    (ht : s.head.takeBefore boundary o.blockSpanMs = .ok (flushed, head)) :
    (s.moveToBlock flushed head boundary).Faithful rows ∧ (s.moveToBlock flushed head boundary).head = head := by
  have hhead := h.withHead (h.head.takeBefore ht) (h.within.of_subset fun l => (h.head.flush_subset ht l).2)
  have hblock : (if flushed = [] then { s with head := head } else
      Store.addBlock { s with head := head } 0 flushed).Faithful rows ∧
        (if flushed = [] then { s with head := head } else
          Store.addBlock { s with head := head } 0 flushed).head = head := by
    split_ifs with hnil
    · exact ⟨hhead, rfl⟩
    · obtain ⟨labels, x, hmem⟩ := h.head.exists_flushed ht hnil
      refine ⟨hhead.addBlock 0 (h.head.flushed_sound ht)
        (h.within.of_subset fun l => (h.head.flush_subset ht l).1) hmem, ?_⟩
      rw [addBlock_eq hhead.filed]
  exact ⟨{ hblock.1 with filed := { hblock.1.filed with } }, hblock.2⟩

theorem Faithful.flushBefore (h : s.Faithful rows) (o : TsdbOptions) (boundary : Int64) :
    ∃ flushed s', s.flushBefore o boundary = (s', .ok flushed) ∧ s'.Faithful rows ∧
      s.head.takeBefore boundary o.blockSpanMs = .ok (flushed, s'.head) ∧
      s'.files.log.records = checkpointRecords s'.head boundary := by
  obtain ⟨flushed, head, ht⟩ := s.head.takeBefore_ok boundary o.blockSpanMs
  obtain ⟨hmoved, hhead⟩ := h.moveToBlock ht
  obtain ⟨hpoint, hrecords⟩ := hmoved.checkpoint boundary
  have hpointHead : ((s.moveToBlock flushed head boundary).checkpoint boundary).head = head := by
    obtain ⟨old, new, hc⟩ := checkpoint_spec hmoved.files.ok
    exact hc.head.trans hhead
  have hexpire := expire_spec hpoint.filed o
  have hexpired := hpoint.expire o
  obtain ⟨hframe, hlog⟩ := compactLocked_frame hexpired.sound hexpired.filed
  have hlast := hframe.trans (hexpire.head.trans hpointHead)
  refine ⟨flushed, _, by rw [Store.flushBefore, ht], hexpired.compactLocked o, ?_, ?_⟩
  · rw [hlast, ht]
  · rw [hlast, hlog, hexpire.log, hrecords, hhead]

end Flushes

variable {added : Rows}

section Batches

variable {h h' : Head} {records more : List Record} {id : Nat} {labels : Labels}

structure Tells (h : Head) (records : List Record) (id : Nat) (labels : Labels) : Prop where
  lt : id < h.entries.length
  live : ∀ e, h.entry id = some e → e.labels = labels
  name : ∀ l, nameOf records id = some l → l = labels

theorem Tells.create (ht : Tells h records id labels) (l : Labels) :
    Tells (h.create l) (records ++ [.series h.entries.length l]) id labels := by
  have hne := ht.lt.ne
  refine ⟨ht.lt.trans (by simp [Head.create]), fun e he => ?_, fun l' hname => ?_⟩
  · rw [entry_create, if_neg hne] at he
    exact ht.live e he
  · rw [nameOf_append, nameOf_series, if_neg hne.symm] at hname
    exact ht.name l' hname

theorem tells_new {h : Head} :
    Tells (h.create l) (records ++ [.series h.entries.length l]) h.entries.length l := by
  refine ⟨by simp [create], fun e he => ?_, fun l' hname => ?_⟩
  · rw [entry_create, if_pos rfl] at he
    exact some.inj he ▸ rfl
  · rw [nameOf_append, nameOf_series, if_pos rfl] at hname
    exact (some.inj hname).symm

theorem Tells.append (ht : Tells h records id labels) (happend : h.append i x span oooWindow = .ok h') :
    Tells h' records id labels := by
  obtain ⟨e₀, e₁, he₀, hentry, hall⟩ := entry_append happend
  obtain ⟨_, _, _, _, hh'⟩ := Head.append_eq_ok happend
  refine ⟨by rw [hh']; simpa using ht.lt, fun e he => ?_, ht.name⟩
  rw [hall] at he
  split_ifs at he with heq
  · subst heq
    rw [← some.inj he, append_labels hentry]
    exact ht.live e₀ he₀
  · exact ht.live e he

theorem Tells.flush (ht : Tells h (records ++ more) id labels) {boundary : Int64} {flushed : FlushedSeries}
    (htake : h.takeBefore boundary span = .ok (flushed, h')) :
    Tells h' (checkpointRecords h' boundary ++ more) id labels := by
  have hlive : ∀ e, h'.entry id = some e → e.labels = labels := by
    intro e he
    rw [entry_takeBefore htake] at he
    obtain ⟨e₀, he₀, hkept⟩ := bind_eq_some_iff.mp he
    rw [kept_labels hkept]
    exact ht.live e₀ he₀
  refine ⟨?_, hlive, fun l hname => ?_⟩
  · obtain ⟨-, -, -, rfl⟩ := takeBefore_eq_ok htake
    simpa using ht.lt
  · have hname' := ht.name
    rw [nameOf_append] at hname
    simp only [nameOf_append] at hname'
    cases hmore : nameOf more id with
    | some l' =>
      rw [hmore] at hname hname'
      exact hname' l hname
    | none =>
      rw [hmore, none_or, nameOf_checkpointRecords] at hname
      obtain ⟨e, he, rfl⟩ := map_eq_some_iff.mp hname
      exact hlive e he

def Attributable (s : Store) : Prop :=
  ∀ p ∈ s.head.liveSeries,
    nameOf s.files.log.records p.1 = none ∨ nameOf s.files.log.records p.1 = some p.2
deriving Decidable

-- A batch under way: what it will log agrees with the labels the rows came with. Where any
-- row will do there is nothing to agree on.
structure InBatch (rows : Set (Labels × Sample)) (s : Store) (batch : Batch) : Prop where
  faithful : s.Faithful rows
  series : ∀ r ∈ batch.newSeries, ∀ samples, r ≠ .samples samples
  accepted : rows ≠ Set.univ → ∀ a ∈ batch.accepted, ∃ labels, (labels, a.2) ∈ rows ∧
    Tells s.head (s.files.log.records ++ batch.newSeries) a.1 labels
  live : rows ≠ Set.univ → ∀ id e, s.head.entry id = some e →
    Tells s.head (s.files.log.records ++ batch.newSeries) id e.labels

theorem Faithful.inBatch (h : s.Faithful rows) (hattr : rows ≠ Set.univ → s.Attributable) :
    InBatch rows s .empty := by
  refine ⟨h, by simp [Batch.empty], by simp [Batch.empty], fun hrows id e he => ?_⟩
  refine ⟨lt_of_entry he, fun e' he' => ?_, fun l hname => ?_⟩
  · rw [some.inj (he'.symm.trans he)]
  · rw [show Batch.empty.newSeries = [] from rfl, append_nil] at hname
    obtain hnone | hsome := hattr hrows (id, e.labels) (mem_liveSeries.mpr ⟨e, he, rfl⟩)
    · simp [hnone] at hname
    · exact some.inj (hname.symm.trans hsome)

variable {batch : Batch}

-- What a row or a whole batch leaves: a faithful store, and if it went well a batch under way.
def Leaves (rows : Set (Labels × Sample)) (r : Store × Result Batch) : Prop :=
  r.1.Faithful rows ∧ ∀ batch, r.2 = .ok batch → InBatch rows r.1 batch

theorem leaves_error (h : s.Faithful rows) : Leaves rows (s, .error e) :=
  ⟨h, fun _ heq => by cases heq⟩

section

variable (hb : InBatch rows s batch)

include hb

theorem leaves_ok : Leaves rows (s, .ok batch) :=
  ⟨hb.faithful, fun _ heq => Except.ok.inj heq ▸ hb⟩

theorem InBatch.resolve (hget : s.head.getOrCreate labels maxSeries = .ok (head, id, created)) :
    InBatch rows { s with head := head } (batch.resolve id labels created) := by
  have hfaithful := hb.faithful.withHead (hb.faithful.head.getOrCreate hget).1
    (hb.faithful.within.getOrCreate hget)
  obtain ⟨-, rfl, rfl⟩ | ⟨-, rfl, rfl, rfl⟩ := getOrCreate_cases hget
  · exact ⟨hfaithful, hb.series, hb.accepted, hb.live⟩
  · have hrecords : s.files.log.records ++ (batch.newSeries ++ [.series s.head.entries.length labels]) =
        s.files.log.records ++ batch.newSeries ++ [.series s.head.entries.length labels] :=
      (append_assoc _ _ _).symm
    refine ⟨hfaithful, ?_, fun hrows a ha => ?_, fun hrows i e he => ?_⟩
    · intro r hr
      obtain hr | hr := mem_append.mp hr
      · exact hb.series r hr
      · rw [mem_singleton.mp hr]
        exact fun _ heq => by cases heq
    · obtain ⟨l, hrow, ht⟩ := hb.accepted hrows a ha
      exact ⟨l, hrow, hrecords ▸ ht.create labels⟩
    · change Tells _ (_ ++ (_ ++ _)) _ _
      rw [hrecords]
      rw [entry_create] at he
      split_ifs at he with heq
      · rw [heq, ← some.inj he]
        exact tells_new
      · exact (hb.live hrows i e he).create labels

theorem InBatch.accept {e : SeriesEntry} (he : s.head.entry id = some e) (hrow : (e.labels, x) ∈ rows)
    (happend : s.head.append id x span oooWindow = .ok head) :
    InBatch rows { s with head := head } (batch.accept id x) := by
  refine ⟨hb.faithful.withHead (hb.faithful.head.append happend)
    (hb.faithful.within.append hb.faithful.head he hrow happend), hb.series,
    fun hrows a ha => ?_, fun hrows i e' he' => ?_⟩
  · obtain ha | ha := mem_append.mp ha
    · obtain ⟨l, hrow', ht⟩ := hb.accepted hrows a ha
      exact ⟨l, hrow', ht.append happend⟩
    · rw [mem_singleton.mp ha]
      exact ⟨e.labels, hrow, (hb.live hrows id e he).append happend⟩
  · obtain ⟨e₀, e₁, he₀, hentry, hall⟩ := entry_append happend
    rw [hall] at he'
    split_ifs at he' with heq
    · rw [heq, ← some.inj he', append_labels hentry]
      exact (hb.live hrows id e₀ he₀).append happend
    · exact (hb.live hrows i e' he').append happend

theorem InBatch.flush (o : TsdbOptions) (boundary : Int64) :
    ∃ flushed s', s.flushBefore o boundary = (s', .ok flushed) ∧ InBatch rows s' batch := by
  obtain ⟨flushed, s', heq, hfaithful, htake, hrecords⟩ := hb.faithful.flushBefore o boundary
  refine ⟨flushed, s', heq, hfaithful, hb.series, fun hrows a ha => ?_, fun hrows i e' he' => ?_⟩
  · obtain ⟨l, hrow, ht⟩ := hb.accepted hrows a ha
    exact ⟨l, hrow, hrecords ▸ ht.flush htake⟩
  · have hentry := he'
    rw [entry_takeBefore htake] at hentry
    obtain ⟨e, he, hkept⟩ := bind_eq_some_iff.mp hentry
    rw [hrecords, kept_labels hkept]
    exact (hb.live hrows i e he).flush htake

theorem InBatch.of_eq {batch' : Batch} (hseries : batch'.newSeries = batch.newSeries)
    (haccepted : batch'.accepted = batch.accepted) : InBatch rows s batch' :=
  ⟨hb.faithful, hseries ▸ hb.series, by rw [haccepted, hseries]; exact hb.accepted, by rw [hseries]; exact hb.live⟩

theorem InBatch.retryRow (o : TsdbOptions) (hrow : (labels, x) ∈ rows) :
    Leaves rows (s.retryRow o batch labels x) := by
  obtain ⟨flushed, s', heq, hb'⟩ := hb.flush o (s.head.maxTs + 1)
  unfold Store.retryRow
  rw [heq]
  dsimp only
  split
  case h_1 e hget => exact leaves_error hb'.faithful
  case h_2 head id created hget =>
    have hresolved := hb'.resolve hget
    obtain ⟨-, e, he, rfl⟩ := hb'.faithful.head.getOrCreate hget
    cases happend : head.append id x o.blockSpanMs o.oooWindowMs with
    | ok head' => exact leaves_ok (hresolved.accept he hrow happend)
    | error e' =>
      cases e' with
      | outOfOrder | oooBufferFull => exact leaves_ok (hresolved.of_eq rfl rfl)
      | _ => exact leaves_error hresolved.faithful

theorem InBatch.appendRow (o : TsdbOptions) (hrow : (labels, x) ∈ rows) :
    Leaves rows (s.appendRow o batch labels x) := by
  unfold Store.appendRow
  split
  case h_1 => exact leaves_ok (hb.of_eq rfl rfl)
  case h_2 e _ _ => exact leaves_error hb.faithful
  case h_3 head id created hget =>
    have hresolved := hb.resolve hget
    obtain ⟨-, e, he, rfl⟩ := hb.faithful.head.getOrCreate hget
    cases happend : head.append id x o.blockSpanMs o.oooWindowMs with
    | ok head' => exact leaves_ok (hresolved.accept he hrow happend)
    | error e' =>
      cases e' with
      | outOfOrder => exact leaves_ok (hresolved.of_eq rfl rfl)
      | oooBufferFull => exact hresolved.retryRow o hrow
      | _ => exact leaves_error hresolved.faithful

theorem InBatch.appendRows (o : TsdbOptions) (hadded : ∀ r ∈ added, r ∈ rows) :
    Leaves rows (appendRows o added s batch) := by
  induction added generalizing s batch with
  | nil => exact leaves_ok hb
  | cons row added ih =>
    obtain ⟨labels, x⟩ := row
    obtain ⟨hrow, hadded⟩ := forall_mem_cons.mp hadded
    obtain ⟨hfaithful, hnext⟩ := hb.appendRow o hrow
    rw [appendRows]
    generalize s.appendRow o batch labels x = r at hfaithful hnext
    obtain ⟨s', e | batch'⟩ := r
    · exact leaves_error hfaithful
    · exact ih (hnext batch' rfl) hadded

end

end Batches

section Calls

theorem Faithful.logs (h : s.Faithful rows) (hlogs : Logs s rs s')
    (hattr : Attributes rows (s.files.log.records ++ rs)) : s'.Faithful rows := by
  obtain ⟨l, trail, rfl, hl, htrail⟩ := hlogs
  have hlog : ∀ {f : Files} {part}, f.dirs = s.files.dirs → part <+: rs → s.files.log.Grows part f.log →
      f.Faithful rows := by
    rintro f part hdirs ⟨post, rfl⟩ hgrows
    refine h.files.withLog hdirs hgrows.ok ?_
    rw [hgrows.records_eq]
    rw [← append_assoc] at hattr
    exact hattr.left
  refine ⟨h.head, h.within, { h.filed with },
    hlog rfl (prefix_refl rs) hl, fun f hf => ?_⟩
  obtain hf | hf := mem_append.mp hf
  · exact h.past f hf
  · obtain ⟨hdirs, part, hpart, hgrows⟩ := htrail f hf
    exact hlog hdirs hpart hgrows

theorem InBatch.attributes (hb : InBatch rows s batch) :
    Attributes rows (s.files.log.records ++ batchRecords batch) := by
  by_cases hrows : rows = Set.univ
  · rw [hrows]
    exact fun _ _ _ _ _ _ _ _ => Set.mem_univ _
  have hseries := hb.faithful.files.log.append_series hb.series
  rw [batchRecords, ← append_assoc]
  split_ifs
  · rwa [append_nil]
  · refine hseries.snoc ?_
    rintro samples heq a ha labels hname
    obtain rfl := Record.samples.inj heq
    obtain ⟨l, hrow, ht⟩ := hb.accepted hrows a ha
    exact ht.name labels hname ▸ hrow

section

variable (h : s.Faithful rows)

include h

theorem Faithful.flushDue (o : TsdbOptions) (overBudget : Bool) :
    ((s.flushDue o overBudget).1).Faithful rows := by
  have hfirst : ∃ flushed s', (if s.flushedThrough < windowOf o.blockSpanMs s.head.maxTs then
      s.flushBefore o (windowOf o.blockSpanMs s.head.maxTs) else (s, .ok [])) = (s', .ok flushed) ∧
        s'.Faithful rows := by
    split_ifs
    · obtain ⟨flushed, s', heq, hs', -⟩ := h.flushBefore o (windowOf o.blockSpanMs s.head.maxTs)
      exact ⟨flushed, s', heq, hs'⟩
    · exact ⟨[], s, rfl, h⟩
  obtain ⟨flushed, s', heq, hs'⟩ := hfirst
  unfold Store.flushDue
  simp only [heq]
  split_ifs
  · obtain ⟨more, s'', heq', hs'', -⟩ := hs'.flushBefore o (s'.head.maxTs + 1)
    rw [heq']
    exact hs''
  · exact hs'

theorem Faithful.appendBatch (hattr : rows ≠ Set.univ → s.Attributable) (hadded : ∀ r ∈ added, r ∈ rows)
    (overBudget : Bool) : ((s.appendBatchWithFlush o added overBudget).1).Faithful rows := by
  obtain ⟨hfaithful, hnext⟩ := (h.inBatch hattr).appendRows o hadded
  unfold appendBatchWithFlush
  generalize Store.appendRows o added s .empty = r at hfaithful hnext
  obtain ⟨s', e | batch⟩ := r
  · exact hfaithful
  · have hb := hnext batch rfl
    have hlogged := hfaithful.logs (logs_foldl hfaithful.files.ok (batchRecords batch)) hb.attributes
    have hsynced : (if o.syncOnAppend then ((batchRecords batch).foldl logAppend s').logSync
        else (batchRecords batch).foldl logAppend s').Faithful rows := by
      split_ifs
      · exact hlogged.logs (logs_logSync hlogged.files.ok) (by rw [append_nil]; exact hlogged.files.log)
      · exact hlogged
    have hdue := hsynced.flushDue o overBudget
    simp only
    generalize Store.flushDue _ o overBudget = r at hdue
    obtain ⟨s'', e | flushed⟩ := r
    · exact hdue
    · exact hdue

theorem Faithful.flush : ((s.flush o).1).Faithful rows := by
  unfold Store.flush
  split_ifs
  · exact h
  · obtain ⟨flushed, s', heq, hs', -⟩ := h.flushBefore o (s.head.maxTs + 1)
    rw [heq]
    exact hs'

theorem Faithful.mergeSamples (hadded : ∀ r ∈ added, r ∈ rows) :
    ((s.mergeSamples o added).1).Faithful rows := by
  unfold Store.mergeSamples
  split_ifs with hnil
  · exact h
  · obtain ⟨chunks, hchunks, hsound, ⟨labels, x, hx⟩, hrows⟩ := repairSeries_spec hnil o.blockSpanMs
    have hblock := h.addBlock 0 hsound (fun l y hy => hadded _ (hrows l y hy)) hx
    rw [repairSeries] at hchunks
    simp only [hchunks]
    split_ifs
    · exact hblock.compactLocked o
    · exact hblock

end

-- Only a batch logs samples under ids that older records may name.
def Names (s : Store) : Call → Prop
  | .appendBatch _ _ => s.Attributable
  | _ => True

instance (s : Store) : ∀ c, Decidable (s.Names c)
  | .appendBatch _ _ => inferInstanceAs (Decidable s.Attributable)
  | .flush | .mergeSamples _ => isTrue trivial

theorem Faithful.call (h : s.Faithful rows) {c : Call} (hnames : rows ≠ Set.univ → s.Names c)
    (hrows : ∀ r ∈ c.rows, r ∈ rows) :
    (s.call o c).Faithful rows := by
  cases c with
  | appendBatch added overBudget => exact h.appendBatch hnames hrows overBudget
  | flush => exact h.flush
  | mergeSamples added => exact h.mergeSamples hrows

end Calls

theorem Faithful.mono (h : s.Faithful rows) (hsub : rows ⊆ rows') : s.Faithful rows' := by
  have hfiles : ∀ {f : Files}, f.Faithful rows → f.Faithful rows' := fun hf =>
    ⟨fun b hb => ⟨(hf.blocks b hb).1, (hf.blocks b hb).2.mono hsub⟩, hf.seqs, hf.ok, hf.log.mono hsub⟩
  exact ⟨h.head, h.within.mono hsub, h.filed, hfiles h.files, fun f hf => hfiles (h.past f hf)⟩

theorem Faithful.start (h : s.Faithful rows) (clock : List Nat) : (s.start clock).Faithful rows :=
  { h with filed := { h.filed with }, past := by simp [Store.start] }

theorem Faithful.filesAt (h : s.Faithful rows) (k : Nat) : (s.filesAt k).Faithful rows := by
  unfold Store.filesAt
  cases hk : s.past[k]? with
  | none => exact h.files
  | some f => exact h.past f (mem_of_getElem? hk)

end Store

end Stores

section Disks

variable {d : Disk}

structure Disk.Faithful (rows : Set (Labels × Sample)) (d : Disk) : Prop where
  blocks : ∀ b ∈ d.dirs.map BlockDir.block, b.Sound ∧ Within rows b.pieces
  seqs : ((d.dirs.map BlockDir.block).map Block.seq).Nodup
  sorted : d.segments.Pairwise (fun g g' => g.seq < g'.seq)
  log : Attributes rows (Log.synced d.segments)

theorem Log.Ok.crash {l : Log} (h : l.Ok) (n : Nat) (torn : Bool) :
    (l.crash (l.buffered.take n) torn).Pairwise (fun g g' => g.seq < g'.seq) ∧
      ∃ lost, l.records = synced (l.crash (l.buffered.take n) torn) ++ lost := by
  obtain ⟨init, g, hg, -, -⟩ := h.last
  have hsorted := h.sorted
  rw [hg, pairwise_append] at hsorted
  rw [Log.crash, hg, Log.extendLast_append, pairwise_append]
  refine ⟨⟨hsorted.1, pairwise_singleton _ _, fun a ha b hb => ?_⟩, l.buffered.drop n, ?_⟩
  · rw [mem_singleton.mp hb]
    exact hsorted.2.2 a ha g (mem_singleton_self g)
  · simp [records, synced, hg]

theorem Files.Faithful.crash {f : Files} (h : f.Faithful rows) (n : Nat) (torn : Bool) :
    (f.crash n torn).Faithful rows := by
  obtain ⟨hsorted, lost, hlost⟩ := h.ok.crash n torn
  refine ⟨h.blocks, h.seqs, hsorted, ?_⟩
  have hlog := h.log
  rw [hlost] at hlog
  exact hlog.left

theorem Disk.Faithful.mono (h : d.Faithful rows) (hsub : rows ⊆ rows') : d.Faithful rows' :=
  ⟨fun b hb => ⟨(h.blocks b hb).1, (h.blocks b hb).2.mono hsub⟩, h.seqs, h.sorted, h.log.mono hsub⟩

theorem replayed_prefix (segments : List LogSegment) : ∃ hidden, synced segments = replayed segments ++ hidden := by
  induction segments with
  | nil => exact ⟨[], rfl⟩
  | cons g segments ih =>
    obtain ⟨hidden, ih⟩ := ih
    cases htorn : g.torn with
    | true => exact ⟨synced segments, by simp [replayed, htorn, synced]⟩
    | false =>
      refine ⟨hidden, ?_⟩
      rw [replayed, htorn, if_neg Bool.false_ne_true, append_assoc, ← ih]
      rfl

theorem Log.ok_open {segments : List LogSegment} (h : segments.Pairwise (fun g g' => g.seq < g'.seq)) :
    (Log.open segments).Ok := by
  refine ok_newSegment h fun g hg => ?_
  obtain rfl | ⟨init, last, rfl⟩ := eq_nil_or_concat' segments
  · simp at hg
  · rw [pairwise_append] at h
    simp only [nextSeq, getLast?_append, getLast?_singleton, some_or]
    obtain hg | hg := mem_append.mp hg
    · exact (h.2.2 g hg last (mem_singleton_self last)).trans (Nat.lt_succ_self _)
    · rw [mem_singleton.mp hg]
      exact Nat.lt_succ_self _

theorem lt_foldl_seq (blocks : List Block) (n : Nat) : n ≤ blocks.foldl (fun n b => max n (b.seq + 1)) n ∧
      ∀ b ∈ blocks, b.seq < blocks.foldl (fun n b => max n (b.seq + 1)) n := by
  induction blocks generalizing n with
  | nil => simp
  | cons b blocks ih =>
    obtain ⟨hle, hlt⟩ := ih (max n (b.seq + 1))
    refine ⟨(le_max_left _ _).trans hle, fun c hc => ?_⟩
    obtain rfl | hc := mem_cons.mp hc
    · exact (Nat.lt_succ_self _).trans_le ((le_max_right _ _).trans hle)
    · exact hlt c hc

theorem Store.filed_open {s : Store} (hseqs : ((d.dirs.map BlockDir.block).map Block.seq).Nodup)
    (hopen : Store.open o d = .ok s) : s.Filed := by
  unfold Store.open at hopen
  split_ifs at hopen with hspan hcomplete
  obtain rfl := Except.ok.inj hopen
  have hperm : (d.dirs.map BlockDir.block).Perm (sortBlocks (d.dirs.map BlockDir.block)) := sortByKey_perm.symm
  refine ⟨hperm, fun dir hdir => ?_, (hperm.map Block.seq).nodup_iff.mp hseqs, (lt_foldl_seq _ 1).2,
    sortByKey_sorted⟩
  simp only [List.any_eq_true, Bool.not_eq_eq_eq_not, Bool.not_true] at hcomplete
  by_contra hne
  exact hcomplete ⟨dir, hdir, Bool.eq_false_of_not_eq_true hne⟩

theorem Disk.Faithful.open (h : d.Faithful rows) {s : Store} (hopen : Store.open o d = .ok s) :
    s.Faithful rows := by
  have hfiled := filed_open h.seqs hopen
  unfold Store.open at hopen
  split_ifs at hopen
  obtain rfl := Except.ok.inj hopen
  obtain ⟨hidden, hhidden⟩ := replayed_prefix d.segments
  have hreplayed : Attributes rows (replayed d.segments) := (hhidden ▸ h.log).left
  obtain ⟨hsound, hwithin⟩ := rebuildHead_spec hreplayed
  refine ⟨hsound, hwithin, hfiled, ⟨h.blocks, h.seqs, ok_open h.sorted, ?_⟩, by simp⟩
  simpa [Log.records, Log.open, Log.newSegment, Log.synced] using h.log

end Disks

namespace System

def Faithful (rows : Set (Labels × Sample)) (y : System) : Prop :=
  match y.process with
  | .down d => d.Faithful rows
  | .up s => s.Faithful rows

-- No batch is logged under ids that records of other series still on disk stand for.
def Attributed (y : System) : Event → Prop
  | .call c clock | .cut c clock _ _ _ =>
    match y.process with
    | .down _ => True
    | .up s => (s.start clock).Names c
  | _ => True

variable {y : System}

theorem Faithful.step (h : y.Faithful rows) (hsub : ∀ r ∈ (y.step o event).ingested, r ∈ rows)
    (hevent : rows ≠ Set.univ → y.Attributed event) : (y.step o event).Faithful rows := by
  obtain ⟨disk | s, ingested, appended⟩ := y
  · have hdisk : disk.Faithful rows := h
    cases event with
    | «open» =>
      simp only [System.step]
      split
      case h_1 s hopen => exact hdisk.open hopen
      case h_2 => exact h
    | call c clock | cut c clock k n torn | stop n torn => exact h
  · have hs : s.Faithful rows := h
    have hadded : ∀ {c : Call}, (∀ r ∈ ingested ++ c.rows, r ∈ rows) → ∀ r ∈ c.rows, r ∈ rows :=
      fun hall r hr => hall r (mem_append_right _ hr)
    cases event with
    | «open» => exact h
    | call c clock => exact (hs.start clock).call hevent (hadded hsub)
    | cut c clock k n torn => exact (((hs.start clock).call hevent (hadded hsub)).filesAt k).crash n torn
    | stop n torn => exact hs.files.crash n torn

theorem Faithful.mono (h : y.Faithful rows) (hsub : rows ⊆ rows') : y.Faithful rows' := by
  obtain ⟨disk | s, ingested, appended⟩ := y
  · exact Disk.Faithful.mono h hsub
  · exact Faithful.mono h hsub

theorem faithful_init : init.Faithful rows :=
  ⟨by simp, by simp, by simp, attributes_nil⟩

theorem faithful_run (o : TsdbOptions) (events : List Event) : (run o events).Faithful Set.univ := by
  have hall : ∀ y : System, y.Faithful Set.univ → (events.foldl (step o) y).Faithful Set.univ := by
    intro y hy
    induction events generalizing y with
    | nil => exact hy
    | cons event events ih =>
      exact ih _ (hy.step (fun _ _ => Set.mem_univ _) (fun hne => absurd rfl hne))
  exact hall init faithful_init

theorem ingested_subset {y : System} : y.ingested ⊆ (y.step o event).ingested := by
  obtain ⟨disk | s, ingested, appended⟩ := y
  · cases event with
    | «open» =>
      simp only [System.step]
      split
      case h_1 => exact Subset.refl _
      case h_2 => exact Subset.refl _
    | call c clock | cut c clock k n torn | stop n torn => exact Subset.refl _
  · cases event with
    | «open» => exact Subset.refl _
    | call c clock | cut c clock k n torn => exact subset_append_left _ _
    | stop n torn => exact Subset.refl _

def Attributes (y : System) : Prop := y.Faithful {r | r ∈ y.ingested}

theorem Attributes.step (h : y.Attributes) (hevent : y.Attributed event) : (y.step o event).Attributes :=
  (Faithful.mono h fun _ hr => ingested_subset hr).step (fun _ hr => hr) fun _ => hevent

-- Along a run that never logs a batch under ids of other series, every sample that a query
-- returns stands under the labels it was appended with.
theorem query_attributes (o : TsdbOptions) (events : List Event)
    (hrun : Along (step o) Attributed init events) {s : Store} (hs : (run o events).process = .up s)
    (matchers : List Matcher) (t0 t1 : Int64) : ∃ result, s.query matchers t0 t1 = .ok result ∧
      ∀ series ∈ result, ∀ x ∈ series.2, (series.1, x) ∈ (run o events).ingested := by
  have hfaithful : (run o events).Attributes := hrun.invariant (fun _ _ h hevent => h.step hevent) faithful_init
  simp only [Attributes, Faithful, hs] at hfaithful
  obtain ⟨result, hquery, hspec⟩ := hfaithful.sound.query_spec
  refine ⟨result, hquery, fun series hseries x hx => ?_⟩
  have hheld := ((hspec.mem series.1 x).mp ⟨series.2, hseries, hx⟩).2.2
  have hpieces : Within {r | r ∈ (run o events).ingested} s.pieces := by
    intro labels y hy
    rw [Store.pieces, under_append] at hy
    obtain hy | hy := mem_append.mp hy
    · exact within_flatMap.mpr (fun b hb => (hfaithful.blocks b hb).2) labels y hy
    · exact hfaithful.within labels y hy
  exact hpieces series.1 x (mem_under.mpr (mem_of_held hheld).2)

instance : ∀ (y : System) (event : Event), Decidable (y.Attributed event)
  | ⟨.up s, _, _⟩, .call c clock | ⟨.up s, _, _⟩, .cut c clock _ _ _ =>
    inferInstanceAs (Decidable ((s.start clock).Names c))
  | ⟨.down _, _, _⟩, .call _ _ | ⟨.down _, _, _⟩, .cut _ _ _ _ _ | _, .open | _, .stop _ _ => isTrue trivial

section Scenario

def synced : TsdbOptions := ⟨10, none, 100, 5, true⟩

def host (name : String) : Labels := [⟨"host", name⟩]

def row (name : String) (ts : Int64) (bits : UInt64) : Labels × Sample := (host name, ⟨ts, ⟨bits⟩⟩)

-- Of three series the first goes with its only window. The others are numbered anew after
-- the restart, and one takes a sample.
def renumberedRun : List Event :=
  [.open, .call (.appendBatch [row "a" 1 1, row "b" 15 2, row "c" 15 3] false) [], .stop 0 false,
    .open, .call (.appendBatch [row "c" 16 4] false) [], .stop 0 false, .open]

def keptRun : List Event :=
  [.open, .call (.appendBatch [row "a" 1 1, row "b" 2 2, row "a" 15 3] false) [], .stop 0 false,
    .open, .call (.appendBatch [row "a" 16 4] false) [], .stop 0 false, .open]

end Scenario

theorem query_attributes_keptRun : (opened synced keptRun).bind answer =
        some [(host "a", [⟨1, ⟨1⟩⟩, ⟨15, ⟨3⟩⟩, ⟨16, ⟨4⟩⟩]), (host "b", [⟨2, ⟨2⟩⟩])] ∧
      ∃ s, (run synced keptRun).process = .up s ∧
        ∃ result, s.query [] Int64.minValue Int64.maxValue = .ok result ∧
          ∀ series ∈ result, ∀ x ∈ series.2, (series.1, x) ∈ (run synced keptRun).ingested := by
  have hall : (opened synced keptRun).bind answer =
      some [(host "a", [⟨1, ⟨1⟩⟩, ⟨15, ⟨3⟩⟩, ⟨16, ⟨4⟩⟩]), (host "b", [⟨2, ⟨2⟩⟩])] := by decide
  refine ⟨hall, ?_⟩
  cases hs : (run synced keptRun).process with
  | down disk => simp [opened, hs] at hall
  | up s => exact ⟨s, rfl, query_attributes synced keptRun (by decide) hs [] _ _⟩

-- The last sample of the third series comes back under the labels of the second.
theorem sample_under_other_labels : (opened synced renumberedRun).bind answer =
        some [(host "a", [⟨1, ⟨1⟩⟩]), (host "b", [⟨15, ⟨2⟩⟩, ⟨16, ⟨4⟩⟩]), (host "c", [⟨15, ⟨3⟩⟩])] ∧
      (host "b", (⟨16, ⟨4⟩⟩ : Sample)) ∉ (run synced renumberedRun).ingested ∧
      (host "c", (⟨16, ⟨4⟩⟩ : Sample)) ∈ (run synced renumberedRun).appended := by
  decide

end System

end Skaidb.Tsdb
