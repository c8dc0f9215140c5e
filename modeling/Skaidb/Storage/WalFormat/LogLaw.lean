import Skaidb.Storage.WalFormat.Replay

namespace Skaidb.Storage.WalFormat

open Skaidb.Base List Option Framing Skaidb.Storage.WalFormat.Wal WalCrypto

variable {c : Cipher}

section Appending

variable {kek : Option c.Kek} {file file' tail body : Bytes} {key : Option c.Dek}

def tagOf (key : Option c.Dek) : Nat := if key.isSome then tagLen else 0

structure Ready (kek : Option c.Kek) (file : Bytes) (off : Nat) (key : Option c.Dek) (start : Nat)
    (rs : List WalRecord) : Prop where
  header : match key with
    | none => start = 0
    | some dek => HeaderKey kek file start dek
  start_le : start ≤ off
  off_le : off ≤ file.length
  full : walFraming.extent ((file.take off).drop start) = off - start
  records : (walFraming.frames start ((file.take off).drop start)).mapM (recordAt key) = .ok rs

theorem Ready.congr (h : Ready kek file off key start rs) (hlen : off ≤ file'.length)
    (htake : file'.take off = file.take off) : Ready kek file' off key start rs where
  header := by
    cases key with
    | none => exact h.header
    | some dek =>
      have hle := h.start_le
      have hstart : start = walEncHeaderLen := HeaderKey.start_eq h.header
      obtain ⟨wrapped, k, hof, rfl, hk, hd⟩ := h.header
      have hcut : ∀ xs : Bytes, (xs.take off).take (10 + wrapped.length) =
          xs.take (10 + wrapped.length) := fun xs => by
        rw [take_take, min_eq_left hle]
      exact ⟨wrapped, k, hof.congr (by omega) (by rw [← hcut, htake, hcut]), rfl, hk, hd⟩
  start_le := h.start_le
  off_le := hlen
  full := by rw [htake]; exact h.full
  records := by rw [htake]; exact h.records

private theorem length_drop_take (h : off ≤ file.length) :
    ((file.take off).drop start).length = off - start := by
  simp [h]

private theorem Ready.readEncHeader_eq (h : Ready kek file off (none : Option c.Dek) start rs) :
    readEncHeader (file.take off ++ (encodeFrame (encodePayload r) ++ tail)) = .ok none := by
  have hstart : start = 0 := h.header
  subst hstart
  have hfull := h.full
  have hrecords := h.records
  rw [drop_zero] at hfull hrecords
  cases hb : walFraming.head (file.take off) with
  | none =>
    rw [extent_of_head_none hb] at hfull
    have hoff : off = 0 := by omega
    have hframe := readEncHeader_of_frame r [] tail
    simpa [hoff] using hframe
  | some b =>
    rw [frames_of_head_some hb, mapM_cons] at hrecords
    simp only [bind_eq_ok_iff, recordAt, openBody] at hrecords
    obtain ⟨r₀, ⟨payload, hpayload, hdecode⟩, -⟩ := hrecords
    cases hpayload
    obtain ⟨-, more, rfl⟩ := decodePayload_eq_ok_iff.mp hdecode
    obtain ⟨-, rest, hrest⟩ := readFrame_eq_some_iff.mp hb
    rw [hrest, append_assoc]
    exact readEncHeader_of_frame r₀ more _

theorem length_of_openBody {payload : Bytes} (h : openBody key off body = .ok payload) :
    body.length = payload.length + tagOf key := by
  cases key with
  | none =>
    cases h
    simp [tagOf]
  | some dek => exact c.length_open h

section

variable (hopen : openBody key off body = .ok (encodePayload r))

include hopen

-- The bytes at the append offset hold the appended record and no other exactly
-- when its length does not wrap and no frame starts after it.
theorem mapM_frames_append_iff :
    (walFraming.frames off (encodeFrame body ++ tail)).mapM (recordAt key) = .ok [r] ↔
      body.length < 2 ^ 32 ∧ readFrame tail = none := by
  have hlen := length_of_openBody hopen
  have hpayload := length_encodePayload r
  have hdrop : (encodeFrame body ++ tail).drop (walFraming.size body) = tail := by
    rw [show walFraming.size body = (encodeFrame body).length from (length_encodeFrame body).symm,
      drop_left]
  have hhead : body.length < 2 ^ 32 → walFraming.head (encodeFrame body ++ tail) = some body :=
    fun hlt => readFrame_eq_some_iff.mpr ⟨⟨fun hnil => by simp [hnil] at hlen; omega, hlt⟩, tail, rfl⟩
  constructor
  · intro h
    have hlt : body.length < 2 ^ 32 := by
      -- The frame read there has a 32-bit length and decodes to the record.
      cases hb : walFraming.head (encodeFrame body ++ tail) with
      | none =>
        rw [frames_of_head_none hb] at h
        cases h
      | some b =>
        rw [frames_of_head_some hb, mapM_cons] at h
        simp only [bind_eq_ok_iff, recordAt, pure_eq_ok_iff, List.cons.injEq] at h
        obtain ⟨r', ⟨payload, hpay, hdecode⟩, -, -, rfl, -⟩ := h
        obtain ⟨-, more, rfl⟩ := decodePayload_eq_ok_iff.mp hdecode
        have hb' := (readFrame_eq_some_iff.mp hb).1.2
        have := length_of_openBody hpay
        rw [length_append] at this
        omega
    rw [frames_of_head_some (hhead hlt), hdrop, mapM_cons] at h
    simp only [bind_eq_ok_iff, pure_eq_ok_iff, List.cons.injEq] at h
    obtain ⟨-, -, rest, hrest, -, rfl⟩ := h
    refine ⟨hlt, ?_⟩
    cases hb : walFraming.head tail with
    | none => exact hb
    | some b =>
      rw [frames_of_head_some hb, mapM_cons] at hrest
      simp only [bind_eq_ok_iff, pure_eq_ok_iff] at hrest
      obtain ⟨_, _, _, _, hnil⟩ := hrest
      cases hnil
  · rintro ⟨hlt, htail⟩
    have hnone : walFraming.head tail = none := htail
    rw [frames_of_head_some (hhead hlt), hdrop, frames_of_head_none hnone]
    simp only [mapM_cons, mapM_nil, bind_eq_ok_iff, pure_eq_ok_iff, recordAt]
    exact ⟨r, ⟨_, hopen, decode_encodePayload (by omega)⟩, [], rfl, rfl⟩

variable (h : Ready kek file off key start rs)

include h

theorem Ready.keyOf : KeyOf kek (file.take off ++ (encodeFrame body ++ tail)) start key := by
  cases key with
  | none =>
    cases hopen
    exact ⟨h.readEncHeader_eq, h.header⟩
  | some dek =>
    have hoff := h.off_le
    refine (h.congr (by simp [hoff]) ?_).header
    rw [take_append_of_le_length (by simp [hoff]), take_take, min_self]

theorem Ready.recover_iff :
    (∃ good dek, recoverFile kek (file.take off ++ (encodeFrame body ++ tail)) = .ok (rs', good, dek)) ↔
      ∃ new, (walFraming.frames off (encodeFrame body ++ tail)).mapM (recordAt key) = .ok new ∧
        rs' = rs ++ new := by
  have hkey : KeyOf kek (file.take off ++ (encodeFrame body ++ tail)) start key := h.keyOf hopen
  have hstart := h.start_le
  have hoff := h.off_le
  have hdrop : (file.take off ++ (encodeFrame body ++ tail)).drop start =
      (file.take off).drop start ++ (encodeFrame body ++ tail) :=
    drop_append_of_le_length (by simp; omega)
  have hframes := frames_append (h.full.trans (length_drop_take hoff).symm) start
    (encodeFrame body ++ tail)
  rw [length_drop_take hoff, Nat.add_sub_cancel' hstart, ← hdrop] at hframes
  simp only [recoverFile_eq_ok_iff]
  constructor
  · rintro ⟨good, dek, start', hkey', hrs, -⟩
    obtain ⟨rfl, rfl⟩ := hkey.unique hkey'
    rw [hframes, mapM_append_eq_ok_iff] at hrs
    obtain ⟨old, hold, new, hnew, rfl⟩ := hrs
    rw [h.records] at hold
    cases hold
    exact ⟨new, hnew, rfl⟩
  · rintro ⟨new, hnew, rfl⟩
    refine ⟨_, key, start, hkey, ?_, rfl⟩
    rw [hframes, mapM_append_eq_ok_iff]
    exact ⟨rs, h.records, new, hnew, rfl⟩

theorem Ready.recover_append_iff :
    (∃ good dek, recoverFile kek (file.take off ++ (encodeFrame body ++ tail)) = .ok (rs ++ [r], good, dek)) ↔
      body.length < 2 ^ 32 ∧ readFrame tail = none := by
  rw [h.recover_iff hopen, ← mapM_frames_append_iff hopen]
  constructor
  · rintro ⟨new, hnew, heq⟩
    rw [append_cancel_left heq]
    exact hnew
  · exact fun hnew => ⟨[r], hnew, rfl⟩

end

end Appending

variable {file : Bytes} {kek : Option c.Kek}

section Opening

variable {opts : WalOptions c} {dir : LogDir} {file base : Bytes} {start good off : Nat}
  {dek key : Option c.Dek} {w : Wal c}

-- Where appends to a file go whose frames end at `good`: the offset, the file then
-- and the key. An empty plain file gets a header when encryption is on.
def placement (opts : WalOptions c) (draw : Nat) (file : Bytes) (good : Nat) (dek : Option c.Dek) :
    Option (Nat × Bytes × Option c.Dek) :=
  if dek.isNone ∧ good = 0 ∧ opts.encryptNew then
    opts.kek.map (fun kek => (walEncHeaderLen, writeAllAt file (WalCrypto.fresh kek draw).header 0,
      some (WalCrypto.fresh kek draw).dek))
  else some (good, file, dek)

private theorem exists_crypto_iff {found : Option (WalCrypto c)} :
    (∃ crypto, (.ok (found, file, good) : Result _) = .ok (crypto, base, off) ∧
      crypto.map WalCrypto.dek = key) ↔ some (good, file, found.map WalCrypto.dek) = some (off, base, key) := by
  simp only [Except.ok.injEq, Prod.mk.injEq, Option.some.injEq]
  constructor
  · rintro ⟨-, ⟨rfl, rfl, rfl⟩, rfl⟩
    exact ⟨rfl, rfl, rfl⟩
  · rintro ⟨rfl, rfl, rfl⟩
    exact ⟨_, ⟨rfl, rfl, rfl⟩, rfl⟩

theorem resume_eq_ok_iff (hkey : KeyOf opts.kek file start dek) :
    (∃ crypto, Wal.resume opts draw file good dek = .ok (crypto, base, off) ∧ crypto.map WalCrypto.dek = key) ↔
      placement opts draw file good dek = some (off, base, key) := by
  cases dek with
  | some d =>
    obtain ⟨wrapped, k, hof, rfl, hk, -⟩ := hkey
    have hread := readEncHeader_eq_some_iff.mpr ⟨hof, rfl⟩
    have hresume : resume opts draw file good (some d) =
        .ok (some ⟨k, d, encHeader wrapped⟩, file, good) := by
      simp only [resume, hk, hread]
      rfl
    rw [hresume, exists_crypto_iff]
    simp [placement]
  | none =>
    by_cases hfresh : good = 0 ∧ opts.encryptNew = true
    · obtain ⟨rfl, henc⟩ := hfresh
      cases hk : opts.kek with
      | none => simp [resume, placement, hk, henc, throw, throwThe, MonadExceptOf.throw]
      | some k =>
        have hresume : resume opts draw file 0 none =
            .ok (some (fresh k draw), writeAllAt file (fresh k draw).header 0,
              walEncHeaderLen) := by
          simp only [resume, hk, henc, and_self, if_true]
          rfl
        rw [hresume, exists_crypto_iff]
        simp [placement, hk, henc]
    · have hresume : resume opts draw file good none = .ok (none, file, good) := by
        simp only [resume, if_neg hfresh]
        rfl
      rw [hresume, exists_crypto_iff]
      simp only [placement, isNone_none, true_and, if_neg hfresh, map_none]

@[simp] theorem length_fresh_header (kek : c.Kek) (draw : Nat) :
    (fresh kek draw).header.length = walEncHeaderLen := by
  simp [fresh, c.length_wrapped, walEncHeaderLen]

theorem writeAllAt_of_le (buf : Bytes) (h : offset ≤ file.length) :
    writeAllAt file buf offset = file.take offset ++ (buf ++ file.drop (offset + buf.length)) := by
  simp [writeAllAt, Nat.sub_eq_zero_of_le h]

theorem ready_fresh (hk : kek = some k) (htake : file.take walEncHeaderLen = (fresh k draw).header) :
    Ready kek file walEncHeaderLen (some (fresh k draw).dek) walEncHeaderLen [] := by
  have hlength : walEncHeaderLen ≤ file.length := by
    have := congrArg List.length htake
    rw [length_fresh_header, length_take] at this
    omega
  have hfile : file = encHeader (c.wrapNewDek k draw).2 ++ file.drop walEncHeaderLen := by
    conv_lhs => rw [← take_append_drop walEncHeaderLen file, htake]
    rfl
  have hempty : (file.take walEncHeaderLen).drop walEncHeaderLen = [] := by simp
  refine ⟨⟨(c.wrapNewDek k draw).2, k, ⟨hlength, ?_, _, hfile⟩, ?_, hk, c.unwrap_wrapped k draw⟩,
    le_refl _, hlength, ?_, ?_⟩
  · simp [c.length_wrapped, walWrappedDekLen]
  · simp [c.length_wrapped, walEncHeaderLen]
  · rw [hempty, extent_of_head_none head_nil, Nat.sub_self]
  · rw [hempty, frames_of_head_none head_nil]
    rfl

theorem ready_of_placement (hkey : KeyOf opts.kek file start dek)
    (hrs : (walFraming.frames start (file.drop start)).mapM (recordAt dek) = .ok rs)
    (hplace : placement opts draw file (start + walFraming.extent (file.drop start)) dek =
      some (off, base, key)) : ∃ start', Ready opts.kek base off key start' rs := by
  unfold placement at hplace
  split at hplace
  case isTrue hfresh =>
    obtain ⟨hnone, hgood, -⟩ := hfresh
    obtain ⟨k, hk, heq⟩ := map_eq_some_iff.mp hplace
    cases heq
    have hnil : rs = [] := by
      have hnone : walFraming.head (file.drop start) = none :=
        extent_eq_zero_iff.mp (by omega)
      rw [frames_of_head_none hnone, mapM_nil, pure_eq_ok_iff] at hrs
      exact hrs.symm
    rw [hnil]
    refine ⟨walEncHeaderLen, ready_fresh hk ?_⟩
    rw [writeAllAt_of_le _ (Nat.zero_le _), take_zero, nil_append,
      take_append_of_le_length (by simp), ← length_fresh_header k draw, take_length]
  case isFalse =>
    cases hplace
    have hstart := hkey.start_le
    have hext := extent_le_length (F := walFraming) (file.drop start)
    have htake : (file.take (start + walFraming.extent (file.drop start))).drop start =
        (file.drop start).take (walFraming.extent (file.drop start)) := by
      rw [drop_take, Nat.add_sub_cancel_left]
    rw [length_drop] at hext
    obtain ⟨hfull, hframes⟩ := take_extent
    refine ⟨start, ?_, Nat.le_add_right _ _, by omega, ?_, ?_⟩
    · cases dek with
      | none => exact hkey.2
      | some d => exact hkey
    · rw [htake, hfull, Nat.add_sub_cancel_left]
    · rw [htake, hframes]
      exact hrs

-- A log as `open` leaves it, for a file whose frames start at `start` under `dek`.
structure Opened (opts : WalOptions c) (draw : Nat) (file : Bytes) (start : Nat) (dek : Option c.Dek)
    (w : Wal c) (off : Nat) (base : Bytes) : Prop where
  place : placement opts draw file (start + walFraming.extent (file.drop start)) dek =
    some (off, base, w.crypto.map WalCrypto.dek)
  file_eq : w.file = Wal.reserve opts.preallocChunk off base
  writeOffset : w.writeOffset = off
  preallocChunk : w.preallocChunk = opts.preallocChunk
  allocated : w.allocated = w.file.length
  kek_eq : ∀ crypto ∈ w.crypto, opts.kek = some crypto.kek

theorem kek_of_resume {crypto : Option (WalCrypto c)}
    (h : resume opts draw file good dek = .ok (crypto, base, off)) : ∀ x ∈ crypto, opts.kek = some x.kek := by
  rintro x rfl
  unfold resume at h
  split at h
  case h_1 d k hk =>
    obtain ⟨header, -, h⟩ := bind_eq_ok_iff.mp h
    cases header with
    | none => cases h
    | some header =>
      cases h
      exact hk
  case h_2 => cases h
  case h_3 =>
    split at h
    case isTrue =>
      cases hk : opts.kek with
      | none =>
        rw [hk] at h
        cases h
      | some k =>
        rw [hk] at h
        cases h
        rfl
    case isFalse => cases h

theorem open_eq_ok (h : Wal.open opts draw dir = .ok (w, rs)) : w.segments = dir.segments ∧ ∃ old new,
      Wal.recoverSegments opts.kek (dir.segments.entries.map Prod.snd) = .ok old ∧ rs = old ++ new ∧
        ∃ start dek off base, KeyOf opts.kek (dir.active.getD []) start dek ∧
          (walFraming.frames start ((dir.active.getD []).drop start)).mapM (recordAt dek) = .ok new ∧
            Opened opts draw (dir.active.getD []) start dek w off base := by
  simp only [Wal.open, bind_eq_ok_iff, Prod.exists, pure_eq_ok_iff, Prod.mk.injEq] at h
  obtain ⟨old, hold, new, good, dek, hnew, crypto, base, off, hresume, rfl, rfl⟩ := h
  obtain ⟨start, hkey, hmap, rfl⟩ := recoverFile_eq_ok_iff.mp hnew
  refine ⟨rfl, old, new, hold, rfl, start, dek, off, base, hkey, hmap, ?_, rfl, rfl, rfl, rfl,
    kek_of_resume hresume⟩
  exact (resume_eq_ok_iff hkey).mp ⟨crypto, hresume, rfl⟩

theorem open_of_placement (hold : Wal.recoverSegments opts.kek (dir.segments.entries.map Prod.snd) = .ok old)
    (hkey : KeyOf opts.kek (dir.active.getD []) start dek)
    (hnew : (walFraming.frames start ((dir.active.getD []).drop start)).mapM (recordAt dek) = .ok new)
    (hplace : placement opts draw (dir.active.getD [])
      (start + walFraming.extent ((dir.active.getD []).drop start)) dek = some (off, base, key)) :
    ∃ w, Wal.open opts draw dir = .ok (w, old ++ new) := by
  obtain ⟨crypto, hresume, -⟩ := (resume_eq_ok_iff hkey).mpr hplace
  have hrecover := recoverFile_eq_ok_iff.mpr ⟨start, hkey, hnew, rfl⟩
  simp only [Wal.open, bind_eq_ok_iff, Prod.exists, pure_eq_ok_iff, Prod.mk.injEq]
  exact ⟨_, old, hold, new, _, dek, hrecover, crypto, base, off, hresume, rfl, rfl⟩

end Opening

section Growing

-- The file with the space that opening it and appending up to `finish` reserve.
def grown (chunk off finish : Nat) (base : Bytes) : Bytes :=
  if 0 < chunk ∧ (Wal.reserve chunk off base).length < finish then
    setLen (Wal.reserve chunk off base) (roundUp finish chunk)
  else Wal.reserve chunk off base

theorem le_roundUp (len : Nat) (h : 0 < chunk) : len ≤ roundUp len chunk := by
  have hdiv := Nat.div_add_mod (len + (chunk - 1)) chunk
  have hmod := Nat.mod_lt (len + (chunk - 1)) h
  unfold roundUp
  rw [Nat.mul_comm]
  omega

theorem setLen_of_le (h : file.length ≤ len) : setLen file len = file ++ replicate (len - file.length) 0 := by
  rw [setLen, take_of_length_le h]

theorem reserve_eq : ∃ n, reserve chunk off base = base ++ replicate n 0 := by
  unfold reserve
  split
  case isTrue h => exact ⟨_, setLen_of_le h.2.le⟩
  case isFalse => exact ⟨0, by simp⟩

theorem grown_eq : ∃ n, grown chunk off finish base = base ++ replicate n 0 := by
  obtain ⟨n, hn⟩ := reserve_eq
  unfold grown
  split
  case isTrue h =>
    refine ⟨n + (roundUp finish chunk - (reserve chunk off base).length), ?_⟩
    rw [setLen_of_le (h.2.le.trans (le_roundUp finish h.1)), hn, append_assoc,
      replicate_append_replicate]
  case isFalse => exact ⟨n, hn⟩

end Growing

section Law

variable {opts : WalOptions c} {dir : LogDir} {file base : Bytes} {dek : Option c.Dek} {w w' : Wal c}

def frameEnd (key : Option c.Dek) (off : Nat) (r : WalRecord) : Nat :=
  off + (4 + ((encodePayload r).length + tagOf key) + 4)

theorem openBody_frameBody (h : w.frameBody payload = .ok body) :
    openBody (w.crypto.map WalCrypto.dek) w.writeOffset body = .ok payload := by
  unfold frameBody at h
  cases hc : w.crypto with
  | none =>
    rw [hc] at h
    cases h
    rfl
  | some crypto =>
    rw [hc] at h
    exact c.open_seal h

theorem append_eq_ok_iff : w.append r = .ok (w', commit) ↔ ∃ body, w.frameBody (encodePayload r) = .ok body ∧
      { w.allocate (w.writeOffset + (encodeFrame body).length) with
        file := writeAllAt (w.allocate (w.writeOffset + (encodeFrame body).length)).file
          (encodeFrame body) (w.allocate (w.writeOffset + (encodeFrame body).length)).writeOffset
        writeOffset := w.writeOffset + (encodeFrame body).length } = w' ∧
      ⟨(w.allocate (w.writeOffset + (encodeFrame body).length)).generation,
        w.writeOffset + (encodeFrame body).length⟩ = commit := by
  simp only [append, bind_eq_ok_iff, pure_eq_ok_iff, Prod.mk.injEq]

@[simp] theorem writeOffset_allocate {w : Wal c} : (w.allocate finish).writeOffset = w.writeOffset := by
  unfold allocate
  split <;> rfl

@[simp] theorem segments_allocate {w : Wal c} : (w.allocate finish).segments = w.segments := by
  unfold allocate
  split <;> rfl

@[simp] theorem dir_commitSync {w : Wal c} : (w.commitSync commit).dir = w.dir := by
  unfold commitSync
  split <;> rfl

theorem dir_append (h : w.append r = .ok (w', commit)) :
    (w'.commitSync commit).dir = ⟨some w'.file, w.segments⟩ := by
  obtain ⟨body, -, rfl, -⟩ := append_eq_ok_iff.mp h
  rw [dir_commitSync, dir, segments_allocate]

theorem exists_append (w : Wal c) (h : (encodePayload r).length < 2 ^ 32) :
    ∃ w' commit, w.append r = .ok (w', commit) := by
  obtain ⟨body, hbody⟩ : ∃ body, w.frameBody (encodePayload r) = .ok body := by
    unfold frameBody
    cases w.crypto with
    | none => exact ⟨_, rfl⟩
    | some crypto => exact c.seal_short _ _ _ h
  exact ⟨_, _, append_eq_ok_iff.mpr ⟨body, hbody, rfl, rfl⟩⟩

theorem Opened.file_allocate (h : Opened opts draw file start dek w off base) :
    (w.allocate finish).file = grown opts.preallocChunk off finish base := by
  unfold allocate grown
  rw [h.preallocChunk, h.allocated, h.file_eq]
  split
  · rfl
  · exact h.file_eq

theorem Opened.file_append (h : Opened opts draw file start dek w off base) (hoff : off ≤ base.length)
    (hopen : openBody (w.crypto.map WalCrypto.dek) off body = .ok (encodePayload r)) :
    writeAllAt (w.allocate (w.writeOffset + (encodeFrame body).length)).file (encodeFrame body)
        (w.allocate (w.writeOffset + (encodeFrame body).length)).writeOffset =
      base.take off ++ (encodeFrame body ++
        (grown opts.preallocChunk off (frameEnd (w.crypto.map WalCrypto.dek) off r) base).drop
          (frameEnd (w.crypto.map WalCrypto.dek) off r)) := by
  have hend : off + (encodeFrame body).length = frameEnd (w.crypto.map WalCrypto.dek) off r := by
    rw [length_encodeFrame, length_of_openBody hopen, frameEnd]
  obtain ⟨n, hn⟩ := grown_eq
  rw [writeOffset_allocate, h.writeOffset, hend, h.file_allocate, writeAllAt_of_le]
  · rw [hn, take_append_of_le_length hoff, hend]
  · rw [hn, length_append]
    omega

-- The records of a first open, and those of a second one after an append with a sync.
def reopened (opts : WalOptions c) (draw draw' : Nat) (dir : LogDir) (r : WalRecord) :
    Result (List WalRecord × List WalRecord) := do
  let (w, rs) ← Wal.open opts draw dir
  let (w, commit) ← w.append r
  let (_, rs') ← Wal.open opts draw' (w.commitSync commit).dir
  return (rs, rs')

def LogLaw (opts : WalOptions c) (draw draw' : Nat) (dir : LogDir) (r : WalRecord) : Prop :=
  ∃ rs, reopened opts draw draw' dir r = .ok (rs, rs ++ [r])

theorem logLaw_iff_exists : LogLaw opts draw draw' dir r ↔ ∃ w rs, Wal.open opts draw dir = .ok (w, rs) ∧
      ∃ w' commit, w.append r = .ok (w', commit) ∧
        ∃ w'', Wal.open opts draw' (w'.commitSync commit).dir = .ok (w'', rs ++ [r]) := by
  simp only [LogLaw, reopened, bind_eq_ok_iff, Prod.exists, pure_eq_ok_iff, Prod.mk.injEq]
  constructor
  · rintro ⟨_, w, _, hopen, w', commit, happend, w'', _, hreopen, rfl, rfl⟩
    exact ⟨w, _, hopen, w', commit, happend, w'', hreopen⟩
  · rintro ⟨w, rs, hopen, w', commit, happend, w'', hreopen⟩
    exact ⟨rs, w, rs, hopen, w', commit, happend, w'', _, hreopen, rfl, rfl⟩

def Readable (kek : Option c.Kek) (file : Bytes) (start : Nat) (dek : Option c.Dek) : Prop :=
  KeyOf kek file start dek ∧
    ∀ f ∈ walFraming.frames start (file.drop start), ∃ payload, openBody dek f.1 f.2 = .ok payload ∧
      ∃ r rest, Fits r ∧ payload = encodePayload r ++ rest

-- All the files are readable, there is a key where one is needed, the record's length
-- does not wrap, and no complete frame starts right after its frame.
def Appendable (opts : WalOptions c) (draw : Nat) (dir : LogDir) (r : WalRecord) : Prop :=
  (∀ s ∈ dir.segments.entries, ∃ start dek, Readable opts.kek s.2 start dek) ∧
    ∃ start dek off base key, Readable opts.kek (dir.active.getD []) start dek ∧
      placement opts draw (dir.active.getD [])
        (start + walFraming.extent ((dir.active.getD []).drop start)) dek = some (off, base, key) ∧
      (encodePayload r).length + tagOf key < 2 ^ 32 ∧
      readFrame ((grown opts.preallocChunk off (frameEnd key off r) base).drop (frameEnd key off r)) =
        none

theorem readable_iff : Readable kek file start dek ↔ KeyOf kek file start dek ∧
      ∃ rs, (walFraming.frames start (file.drop start)).mapM (recordAt dek) = .ok rs := by
  rw [exists_mapM_eq_ok_iff]
  refine and_congr_right fun _ => forall₂_congr fun f _ => ?_
  simp only [recordAt, bind_eq_ok_iff, decodePayload_eq_ok_iff]
  constructor
  · rintro ⟨payload, hopen, r, rest, hfits, heq⟩
    exact ⟨r, payload, hopen, hfits, rest, heq⟩
  · rintro ⟨r, payload, hopen, hfits, rest, heq⟩
    exact ⟨payload, hopen, r, rest, hfits, heq⟩

theorem exists_recoverSegments_iff : (∃ rs, recoverSegments kek files = .ok rs) ↔
      ∀ file ∈ files, ∃ start dek, Readable kek file start dek := by
  induction files with
  | nil => simp [recoverSegments]
  | cons file files ih =>
    rw [forall_mem_cons, ← ih]
    simp only [recoverSegments, bind_eq_ok_iff, Prod.exists, pure_eq_ok_iff, readable_iff]
    constructor
    · rintro ⟨-, new, good, dek, hnew, rest, hrest, rfl⟩
      obtain ⟨start, hkey, hmap, -⟩ := recoverFile_eq_ok_iff.mp hnew
      exact ⟨⟨start, dek, hkey, new, hmap⟩, rest, hrest⟩
    · rintro ⟨⟨start, dek, hkey, new, hmap⟩, rest, hrest⟩
      exact ⟨_, new, _, dek, recoverFile_eq_ok_iff.mpr ⟨start, hkey, hmap, rfl⟩, rest, hrest, rfl⟩

theorem open_of_recover (hold : Wal.recoverSegments opts.kek (dir.segments.entries.map Prod.snd) = .ok old)
    (hnew : recoverFile opts.kek (dir.active.getD []) = .ok (new, good, dek)) (hne : new ≠ []) :
    ∃ w, Wal.open opts draw dir = .ok (w, old ++ new) := by
  obtain ⟨start, hkey, hmap, rfl⟩ := recoverFile_eq_ok_iff.mp hnew
  have hpos : walFraming.extent ((dir.active.getD []).drop start) ≠ 0 := by
    intro hzero
    rw [frames_of_head_none (extent_eq_zero_iff.mp hzero), mapM_nil,
      pure_eq_ok_iff] at hmap
    exact hne hmap.symm
  refine open_of_placement hold hkey hmap (if_neg ?_)
  rintro ⟨-, hzero, -⟩
  omega

theorem Opened.recover_append_iff (h : Opened opts draw file start dek w off base)
    (hkey : KeyOf opts.kek file start dek)
    (hmap : (walFraming.frames start (file.drop start)).mapM (recordAt dek) = .ok rs)
    (happend : w.append r = .ok (w', commit)) :
    (∃ good dek', recoverFile opts.kek w'.file = .ok (rs ++ [r], good, dek')) ↔
      (encodePayload r).length + tagOf (w.crypto.map WalCrypto.dek) < 2 ^ 32 ∧
        readFrame ((grown opts.preallocChunk off (frameEnd (w.crypto.map WalCrypto.dek) off r) base).drop
          (frameEnd (w.crypto.map WalCrypto.dek) off r)) = none := by
  obtain ⟨body, hbody, rfl, -⟩ := append_eq_ok_iff.mp happend
  have hopen := openBody_frameBody hbody
  rw [h.writeOffset] at hopen
  obtain ⟨start', hready⟩ := ready_of_placement hkey hmap h.place
  rw [← length_of_openBody hopen, h.file_append hready.off_le hopen, hready.recover_append_iff hopen]

-- The log law holds exactly for files in which nothing readable is left where the
-- appended record ends.
theorem log_law_iff (opts : WalOptions c) (draw draw' : Nat) (dir : LogDir) (r : WalRecord) :
    LogLaw opts draw draw' dir r ↔ Appendable opts draw dir r := by
  rw [logLaw_iff_exists]
  constructor
  · rintro ⟨w, rs, hopen, w', commit, happend, w'', hreopen⟩
    obtain ⟨hseg, old, new, hold, rfl, start, dek, off, base, hkey, hmap, hopened⟩ := open_eq_ok hopen
    rw [dir_append happend, hseg] at hreopen
    obtain ⟨-, old', new', hold', heq, start', dek', -, -, hkey', hmap', -⟩ := open_eq_ok hreopen
    rw [hold] at hold'
    cases hold'
    rw [append_assoc] at heq
    rw [← append_cancel_left heq] at hmap'
    have hrecover := recoverFile_eq_ok_iff.mpr ⟨start', hkey', hmap', rfl⟩
    obtain ⟨hlt, hnone⟩ := (hopened.recover_append_iff hkey hmap happend).mp ⟨_, _, hrecover⟩
    refine ⟨fun s hs => ?_, start, dek, off, base, _, readable_iff.mpr ⟨hkey, new, hmap⟩,
      hopened.place, hlt, hnone⟩
    exact exists_recoverSegments_iff.mp ⟨old, hold⟩ s.2 (mem_map_of_mem hs)
  · rintro ⟨hsegments, start, dek, off, base, key, hreadable, hplace, hlt, hnone⟩
    obtain ⟨hkey, new, hmap⟩ := readable_iff.mp hreadable
    obtain ⟨old, hold⟩ := exists_recoverSegments_iff.mpr
      (fun file hfile => by
        obtain ⟨s, hs, rfl⟩ := mem_map.mp hfile
        exact hsegments s hs)
    obtain ⟨w, hw⟩ := open_of_placement hold hkey hmap hplace
    obtain ⟨hseg, old', new', hold', heq, start', dek', off', base', hkey', hmap', hopened⟩ :=
      open_eq_ok hw
    obtain ⟨rfl, rfl⟩ := hkey.unique hkey'
    rw [hmap] at hmap'
    cases hmap'
    have hplace' := hopened.place
    rw [hplace] at hplace'
    cases hplace'
    obtain ⟨w', commit, happend⟩ := exists_append (r := r) w (by omega)
    obtain ⟨good, dek', hrecover⟩ :=
      (hopened.recover_append_iff hkey hmap happend).mpr ⟨hlt, hnone⟩
    refine ⟨w, _, hw, w', commit, happend, ?_⟩
    rw [dir_append happend, hseg, append_assoc]
    exact open_of_recover hold hrecover (by simp)

section Stale

def erased (key : UInt8) : WalRecord := ⟨⟨1, 0⟩, [key], .delete⟩

-- A torn record between two complete ones, as a crash can leave when the blocks of a
-- file reach the disk out of order.
def tornMiddle : Bytes :=
  encodeFrame (encodePayload (erased 1)) ++ (encodeFrame (encodePayload (erased 2))).set 4 0xFF ++
    encodeFrame (encodePayload (erased 3))

-- The appended record takes exactly the torn one's place, and the record behind it,
-- which the first open did not return, is back.
theorem append_revives_stale_record :
    reopened (c := clearCipher) ⟨0, none, false⟩ 0 0 ⟨some tornMiddle, OrdMap.empty⟩ (erased 4) =
        .ok ([erased 1], [erased 1, erased 4, erased 3]) ∧
      ¬ LogLaw (c := clearCipher) ⟨0, none, false⟩ 0 0 ⟨some tornMiddle, OrdMap.empty⟩ (erased 4) := by
  have hrun : reopened (c := clearCipher) ⟨0, none, false⟩ 0 0 ⟨some tornMiddle, OrdMap.empty⟩
      (erased 4) = .ok ([erased 1], [erased 1, erased 4, erased 3]) := by decide +kernel
  refine ⟨hrun, ?_⟩
  rintro ⟨rs, hrs⟩
  rw [hrun] at hrs
  cases hrs

end Stale

end Law

end Skaidb.Storage.WalFormat
