import Skaidb.Base.Framing
import Skaidb.Tsdb.Wal

namespace Skaidb.Tsdb

open Skaidb.Base Skaidb.Types List Record Framing Dec

namespace Record

def ids : Record → List Nat
  | .series id _ => [id]
  | .samples batch => batch.map Prod.fst

-- The ids are machine words, and the length fits its field in the frame.
def Fits (r : Record) : Prop := (∀ id ∈ r.ids, id < 2 ^ 64) ∧ r.encode.length < 2 ^ 32
deriving Decidable

end Record

section RoundTrip

open Reader

private theorem length_le_flatMap {α : Type} {write : α → Bytes} (hpos : ∀ a, 0 < (write a).length)
    (as : List α) : as.length ≤ (as.flatMap write).length := by
  induction as with
  | nil => simp
  | cons a as ih =>
    have := hpos a
    rw [flatMap_cons, length_append, length_cons]
    omega

private theorem length_write_le {α : Type} (write : α → Bytes) {a : α} {as : List α} (ha : a ∈ as) :
    (write a).length ≤ (as.flatMap write).length := by
  obtain ⟨before, after, rfl⟩ := append_of_mem ha
  simp only [flatMap_append, flatMap_cons, length_append]
  omega

theorem length_putUvarint_pos (v : Nat) : 0 < (putUvarint v).length := by
  rw [putUvarint, putUvarintLoop]
  split_ifs <;> simp

private theorem length_putLabel_pos (label : Label) : 0 < (putLabel label).length := by
  have := length_putUvarint_pos (utf8 label.key).length
  simp only [putLabel, putBytes, length_append]
  omega

private theorem length_putSample_pos (s : Nat × Sample) : 0 < (putSample s).length := by
  have := length_putUvarint_pos s.1
  simp only [putSample, length_append]
  omega

theorem reads_decodeLabel {label : Label} (h : (putLabel label).length < 2 ^ 64) :
    Reads decodeLabel (putLabel label) label := by
  simp only [putLabel, putBytes, length_append] at h
  exact (reads_string (by omega)).bind
    ((reads_string (by omega)).map (fun v => Label.mk label.key v))

theorem reads_decodeSample {s : Nat × Sample} (h : s.1 < 2 ^ 64) : Reads decodeSample (putSample s) s :=
  (reads_uvarint h).bind (reads_varint.bind
    (reads_u64Le.map (fun value => (s.1, Sample.mk s.2.ts (F64.mk value)))))

theorem reads_decodeRecord {r : Record} (h : r.Fits) : Reads decodeRecord r.encode r := by
  obtain ⟨hids, hlen⟩ := h
  cases r with
  | series id labels =>
    have hcount := length_le_flatMap length_putLabel_pos labels
    simp only [encode, length_cons, length_append] at hlen
    have hlabels : Reads (many decodeLabel labels.length) (labels.flatMap putLabel) labels :=
      Reads.many labels (fun label hlabel => reads_decodeLabel (by
        have := length_write_le putLabel hlabel
        omega))
    exact (reads_u8 recSeries).bind ((reads_uvarint (hids id (by simp [ids]))).bind
      ((reads_uvarint (by omega)).bind (hlabels.map (fun labels => series id labels))))
  | samples batch =>
    have hcount := length_le_flatMap length_putSample_pos batch
    simp only [encode, length_cons, length_append] at hlen
    have hbatch : Reads (many decodeSample batch.length) (batch.flatMap putSample) batch :=
      Reads.many batch (fun s hs => reads_decodeSample (hids s.1 (mem_map_of_mem hs)))
    exact (reads_u8 recSamples).bind
      ((reads_uvarint (by omega)).bind (hbatch.map (fun batch => samples batch)))

theorem Record.decode_encode {r : Record} (h : r.Fits) : decode r.encode = .ok r := by
  have hread := reads_decodeRecord h []
  rw [append_nil] at hread
  rw [decode, hread]
  rfl

end RoundTrip

section Framing

theorem length_frame {payload : Bytes} : (frame payload).length = 8 + payload.length := by
  simp only [frame, length_append, length_leBytes]
  omega

private theorem leBytes_of_length {b : Bytes} (h : b.length = n) : leBytes n (leNat b) = b := by
  rw [← h, leBytes_leNat]

theorem readFrame_eq_some_iff {data payload : Bytes} :
    readFrame data = some payload ↔ payload.length < 2 ^ 32 ∧ frame payload <+: data := by
  constructor
  · intro h
    simp only [readFrame] at h
    split_ifs at h with hfits
    obtain ⟨hlen, hcrc⟩ := hfits
    have hpayload := Option.some.inj h
    have htake : (data.take 4).length = 4 := by
      rw [length_take]
      omega
    have hplen : payload.length = leNat (data.take 4) := by
      rw [← hpayload, length_take, length_drop]
      omega
    have hword := leNat_lt (data.take 4)
    rw [htake] at hword
    refine ⟨by omega, ?_⟩
    rw [prefix_iff_eq_take, length_frame, frame, hplen, leBytes_of_length htake, ← hpayload, ← hcrc,
      leBytes_of_length (by rw [length_take, length_drop]; omega), take_add,
      take_add (i := 4) (j := 4), append_assoc]
  · rintro ⟨hword, rest, rfl⟩
    have hlen : leNat ((frame payload ++ rest).take 4) = payload.length := by
      rw [frame, append_assoc, take_left' length_leBytes, leNat_leBytes,
        Nat.mod_eq_of_lt (by simpa using hword)]
    have hdrop : (frame payload ++ rest).drop 4 = leBytes 4 (crc32 payload).toNat ++ (payload ++ rest) := by
      rw [frame, append_assoc, drop_left' length_leBytes, append_assoc]
    have hpayload : (frame payload ++ rest).drop 8 = payload ++ rest := by
      rw [show 8 = 4 + 4 from rfl, ← drop_drop, hdrop, drop_left' length_leBytes]
    have hcrc : leNat (((frame payload ++ rest).drop 4).take 4) = (crc32 payload).toNat := by
      rw [hdrop, take_left' length_leBytes, leNat_leBytes,
        Nat.mod_eq_of_lt (by simpa using (crc32 payload).toNat_lt)]
    have hfits : 8 + payload.length ≤ (frame payload ++ rest).length := by
      rw [length_append, length_frame]
      omega
    simp only [readFrame]
    rw [hlen, hcrc, hpayload, take_left' rfl, if_pos ⟨hfits, rfl⟩]

structure Frame where
  payload : Bytes
  record : Record
  decodes : Record.decode payload = .ok record

def headFrame (data : Bytes) : Option Frame :=
  match readFrame data with
  | none => none
  | some payload =>
    match h : Record.decode payload with
    | .error _ => none
    | .ok record => some ⟨payload, record, h⟩

theorem headFrame_eq_some_iff {f : Frame} :
    headFrame data = some f ↔ f.payload.length < 2 ^ 32 ∧ frame f.payload <+: data := by
  rw [← readFrame_eq_some_iff, headFrame]
  obtain ⟨payload, record, hdecodes⟩ := f
  split
  case h_1 hread => simp [hread]
  case h_2 payload' hread =>
    rw [hread]
    split
    case h_1 e herror =>
      simp only [reduceCtorEq, Option.some.injEq, false_iff]
      rintro rfl
      exact absurd (herror.symm.trans hdecodes) (by simp)
    case h_2 record' hok =>
      simp only [Option.some.injEq, Frame.mk.injEq, and_iff_left_iff_imp]
      rintro rfl
      exact Except.ok.inj (hok.symm.trans hdecodes)

def framing : Framing UInt8 Frame where
  head := headFrame
  size f := 8 + f.payload.length
  size_pos f := by omega
  size_le h := by
    rw [← length_frame]
    exact (headFrame_eq_some_iff.mp h).2.length_le
  head_congr {xs f} h ys htake hlen := by
    obtain ⟨hword, hpre⟩ := headFrame_eq_some_iff.mp h
    refine headFrame_eq_some_iff.mpr ⟨hword, ?_⟩
    rw [List.prefix_iff_eq_take, length_frame] at hpre ⊢
    rw [htake, hpre]

end Framing

section Segment

-- The records that stand whole one behind the other from the front of a segment on.
def recordsIn (data : Bytes) : List Record := (framing.frames 0 data).map (fun f => f.2.record)

-- Behind the last whole record fewer bytes follow than a frame's header has.
def Whole (data : Bytes) : Prop := data.length < framing.extent data + 8
deriving Decidable

variable {data : Bytes} {f : Frame}

theorem recordsIn_of_head_some (h : framing.head data = some f) :
    recordsIn data = f.record :: recordsIn (data.drop (framing.size f)) := by
  have hpos := map_snd_frames (F := framing) (data.drop (framing.size f)) (framing.size f) 0
  have hrecords := congrArg (List.map Frame.record) hpos
  rw [map_map, map_map] at hrecords
  rw [recordsIn, frames_of_head_some h, map_cons, Nat.zero_add]
  exact congrArg _ hrecords

theorem whole_of_head_some (h : framing.head data = some f) :
    Whole data ↔ Whole (data.drop (framing.size f)) := by
  rw [Whole, Whole, extent_of_head_some h, length_drop]
  omega

-- The loop reads the frames one after the other, and breaks off where bytes are left.
theorem replaySegment_eq (h : data.length ≤ fuel) :
    replaySegment fuel data = (recordsIn data, !decide (Whole data)) := by
  induction data using framing.induction generalizing fuel with
  | none data hnone =>
    rw [recordsIn, frames_of_head_none hnone, map_nil]
    simp only [Whole, extent_of_head_none hnone, Nat.zero_add]
    cases fuel with
    | zero => simp [replaySegment, show data.length < 8 by omega]
    | succ fuel =>
      rw [replaySegment]
      split_ifs with hshort
      · simp [hshort]
      · cases hread : readFrame data with
        | none => simp [hshort]
        | some payload =>
          cases hdecode : decode payload with
          | error e => simp [hshort, hdecode]
          | ok record =>
            have hsome : framing.head data = some ⟨payload, record, hdecode⟩ :=
              headFrame_eq_some_iff.mpr (readFrame_eq_some_iff.mp hread)
            exact absurd (hnone.symm.trans hsome) (by simp)
  | some data f hsome ih =>
    have hread : readFrame data = some f.payload :=
      readFrame_eq_some_iff.mpr (headFrame_eq_some_iff.mp hsome)
    have hle : 8 + f.payload.length ≤ data.length := framing.size_le hsome
    have hlt := drop_length_lt hsome
    obtain ⟨fuel, rfl⟩ : ∃ n, fuel = n + 1 := ⟨fuel - 1, by omega⟩
    rw [replaySegment, if_neg (by omega), hread]
    simp only [f.decodes]
    have hrest := @ih fuel (by omega)
    simp only [framing] at hrest
    rw [hrest, recordsIn_of_head_some hsome]
    simp only [whole_of_head_some hsome]
    rfl

end Segment

section Written

variable {records : List Record}

theorem head_frame {r : Record} (h : r.Fits) {tail : Bytes} :
    framing.head (r.frame ++ tail) = some ⟨r.encode, r, decode_encode h⟩ :=
  headFrame_eq_some_iff.mpr ⟨h.2, prefix_append _ _⟩

theorem drop_frame {r : Record} {tail : Bytes} : (r.frame ++ tail).drop (8 + r.encode.length) = tail :=
  drop_left' length_frame

-- What is written of records that fit is read back, and the rest is read on its own.
theorem recordsIn_append (h : ∀ r ∈ records, r.Fits) (tail : Bytes) :
    recordsIn (records.flatMap Record.frame ++ tail) = records ++ recordsIn tail := by
  induction records with
  | nil => rfl
  | cons r records ih =>
    obtain ⟨hr, hrecords⟩ := forall_mem_cons.mp h
    rw [flatMap_cons, append_assoc, recordsIn_of_head_some (head_frame hr)]
    show r :: recordsIn ((r.frame ++ _).drop (8 + r.encode.length)) = _
    rw [drop_frame, ih hrecords, cons_append]

theorem whole_append (h : ∀ r ∈ records, r.Fits) (tail : Bytes) :
    Whole (records.flatMap Record.frame ++ tail) ↔ Whole tail := by
  induction records with
  | nil => rfl
  | cons r records ih =>
    obtain ⟨hr, hrecords⟩ := forall_mem_cons.mp h
    rw [flatMap_cons, append_assoc, whole_of_head_some (head_frame hr)]
    show Whole ((r.frame ++ _).drop (8 + r.encode.length)) ↔ _
    rw [drop_frame, ih hrecords]

end Written

end Skaidb.Tsdb
