import Skaidb.Storage.WalFormat.LogLaw

namespace Skaidb.Storage.WalFormat

open Skaidb.Base List Option Framing

variable {c : Cipher}

section Run

structure Seal (c : Cipher) where
  dek : c.Dek
  offset : Nat
  payload : Bytes

instance [DecidableEq c.Dek] : DecidableEq (Seal c) := fun a b =>
  decidable_of_iff (a.dek = b.dek ∧ a.offset = b.offset ∧ a.payload = b.payload)
    ⟨fun h => by cases a; cases b; simp_all, fun h => h ▸ ⟨rfl, rfl, rfl⟩⟩

def NoncesUnique (used : List (Seal c)) : Prop :=
  ∀ a ∈ used, ∀ b ∈ used, a.dek = b.dek → a.offset = b.offset → a.payload = b.payload

def Wal.seals (w : Wal c) (r : WalRecord) : List (Seal c) :=
  match w.crypto with
  | none => []
  | some crypto =>
    match c.sealAt crypto.dek w.writeOffset (encodePayload r) with
    | .ok _ => [⟨crypto.dek, w.writeOffset, encodePayload r⟩]
    | .error _ => []

-- An append that fails once its frame is built: the file may have grown, and some
-- bytes of the frame may be in it. The append offset stays.
def Wal.appendFails (w : Wal c) (body : Bytes) (grew : Bool) (written : Nat) : Wal c :=
  let w := if grew then w.allocate (w.writeOffset + (encodeFrame body).length) else w
  { w with file := writeAllAt w.file ((encodeFrame body).take written) w.writeOffset }

-- A file that a crash leaves still has every byte below the append offset. A plain
-- log is not left with a header.
def Wal.keeps (w : Wal c) (file : Bytes) : Bool :=
  file.take w.writeOffset = w.file.take w.writeOffset &&
    (w.crypto.isSome || readEncHeader file = .ok none)

-- The key that opening `file` draws, if it draws one.
def mints (opts : WalOptions c) (draw : Nat) (file : Bytes) : Option c.Dek :=
  match recoverFile opts.kek file with
  | .ok (_, 0, none) =>
    if opts.encryptNew then opts.kek.map (fun kek => (c.wrapNewDek kek draw).1) else none
  | _ => none

inductive Phase (c : Cipher) where
  | stopped (dir : LogDir)
  | running (w : Wal c)

structure LogRun (c : Cipher) where
  phase : Phase c
  used : List (Seal c)
  -- History: since the log's key was drawn, no append has failed and no crash has
  -- touched a byte below the append offset.
  intact : Bool

inductive LogEvent where
  | opened (chunk : Nat) (keyed encryptNew : Bool) (draw : Nat)
  | append (r : WalRecord)
  | appendFails (r : WalRecord) (grew : Bool) (written : Nat)
  | rotate (seq draw : Nat)
  | truncate (draw : Nat)
  -- The process ends and leaves `active` as the active file.
  | crash (active : Option Bytes)

def openOptions (kek : c.Kek) (chunk : Nat) (keyed encryptNew : Bool) : WalOptions c :=
  ⟨chunk, if keyed then some kek else none, encryptNew⟩

namespace LogRun

def start (dir : LogDir) : LogRun c := ⟨.stopped dir, [], true⟩

def step (kek : c.Kek) (s : LogRun c) (e : LogEvent) : LogRun c :=
  match e, s.phase with
  | .opened chunk keyed encryptNew draw, .stopped dir =>
    match Wal.open (openOptions kek chunk keyed encryptNew) draw dir with
    | .error _ => s
    | .ok (w, _) =>
      { s with
        phase := .running w
        intact := s.intact ||
          (mints (openOptions kek chunk keyed encryptNew) draw (dir.active.getD [])).isSome }
  | .append r, .running w =>
    match w.append r with
    | .error _ => s
    | .ok (w', _) => { s with phase := .running w', used := s.used ++ w.seals r }
  | .appendFails r grew written, .running w =>
    match w.frameBody (encodePayload r) with
    | .error _ => s
    | .ok body =>
      ⟨.running (w.appendFails body grew written), s.used ++ w.seals r, s.intact && w.crypto.isNone⟩
  | .rotate seq draw, .running w =>
    { s with phase := .running (w.rotate seq draw), intact := s.intact || w.crypto.isSome }
  | .truncate draw, .running w =>
    { s with phase := .running (w.truncate draw), intact := s.intact || w.crypto.isSome }
  | .crash active, .running w =>
    { s with
      phase := .stopped ⟨active, w.segments⟩
      intact := s.intact && w.keeps (active.getD []) }
  | _, _ => s

def run (kek : c.Kek) (s : LogRun c) (events : List LogEvent) : LogRun c := events.foldl (step kek) s

def Unused (s : LogRun c) (dek : c.Dek) : Prop := ∀ u ∈ s.used, u.dek ≠ dek

-- An append to an encrypted log is made only while the log is intact and only for a
-- payload whose length does not wrap. The generator does not repeat a key.
def Careful (kek : c.Kek) (s : LogRun c) (e : LogEvent) : Prop :=
  match e, s.phase with
  | .opened chunk keyed encryptNew draw, .stopped dir =>
    ∀ dek ∈ mints (openOptions kek chunk keyed encryptNew) draw (dir.active.getD []), s.Unused dek
  | .append r, .running w =>
    w.crypto.isSome → s.intact ∧ (encodePayload r).length + tagLen < 2 ^ 32
  | .appendFails r _ _, .running w =>
    w.crypto.isSome → s.intact ∧ (encodePayload r).length + tagLen < 2 ^ 32
  | .rotate _ draw, .running w =>
    ∀ crypto ∈ w.crypto, s.Unused (c.wrapNewDek crypto.kek draw).1
  | .truncate draw, .running w =>
    ∀ crypto ∈ w.crypto, s.Unused (c.wrapNewDek crypto.kek draw).1
  | _, _ => True

instance [DecidableEq c.Dek] (s : LogRun c) (dek : c.Dek) : Decidable (s.Unused dek) :=
  inferInstanceAs (Decidable (∀ u ∈ s.used, u.dek ≠ dek))

instance [DecidableEq c.Dek] (kek : c.Kek) (s : LogRun c) (e : LogEvent) :
    Decidable (s.Careful kek e) := by
  unfold Careful
  split <;> infer_instance

end LogRun

end Run

section Covered

variable {used : List (Seal c)} {file file' tail body : Bytes} {start : Nat} {dek : c.Dek}

-- The log is whole up to `mark`, and what was sealed under its key lies below.
structure Covers (kek : c.Kek) (used : List (Seal c)) (file : Bytes) (mark : Nat) (dek : c.Dek) :
    Prop where
  ready : ∃ start rs, Ready (some kek) file mark (some dek) start rs
  below : ∀ u ∈ used, u.dek = dek → u.offset < mark

def Resumes (kek : c.Kek) (used : List (Seal c)) (file : Bytes) : Prop :=
  ∀ start dek, KeyOf (some kek) file start (some dek) →
    ∀ u ∈ used, u.dek = dek → u.offset < start + walFraming.extent (file.drop start)

theorem length_le_of_take_eq (hmark : mark ≤ file.length) (h : file'.take mark = file.take mark) :
    mark ≤ file'.length := by
  have := congrArg List.length h
  simp only [length_take] at this
  omega

theorem Covers.congr (h : Covers kek used file mark dek) (htake : file'.take mark = file.take mark) :
    Covers kek used file' mark dek := by
  obtain ⟨start, rs, hready⟩ := h.ready
  exact ⟨⟨start, rs, hready.congr (length_le_of_take_eq hready.off_le htake) htake⟩, h.below⟩

theorem Covers.resumes (h : Covers kek used file mark dek) : Resumes kek used file := by
  intro start' dek' hkey u hu hdek
  obtain ⟨start, rs, hready⟩ := h.ready
  have hkey' : KeyOf (some kek) file start (some dek) := hready.header
  obtain ⟨rfl, hsome⟩ := hkey.unique hkey'
  cases hsome
  have hbelow := h.below u hu hdek
  have hstart := hready.start_le
  have hoff := hready.off_le
  have hsplit : file.drop start' = (file.take mark).drop start' ++ file.drop mark := by
    conv_lhs => rw [← take_append_drop mark file]
    exact drop_append_of_le_length (by simp; omega)
  have hlength : ((file.take mark).drop start').length = mark - start' := by simp [hoff]
  rw [hsplit, extent_append (hready.full.trans hlength.symm), hlength]
  omega

theorem Ready.append {kek : Option c.Kek} (h : Ready kek file off key start rs)
    (hopen : openBody key off body = .ok (encodePayload r)) (hlt : body.length < 2 ^ 32) :
    Ready kek (file.take off ++ (encodeFrame body ++ tail)) (off + (encodeFrame body).length) key start
      (rs ++ [r]) := by
  have hoff := h.off_le
  have hstart := h.start_le
  have hlen := length_of_openBody hopen
  have hpayload := length_encodePayload r
  have hhead : walFraming.head (encodeFrame body) = some body :=
    readFrame_eq_some_iff.mpr ⟨⟨fun hnil => by simp [hnil] at hlen; omega, hlt⟩, [], by simp⟩
  have hdrop : (encodeFrame body).drop (walFraming.size body) = [] := by
    rw [show walFraming.size body = (encodeFrame body).length from (length_encodeFrame body).symm,
      drop_length]
  have hpre : ((file.take off).drop start).length = off - start := by simp [hoff]
  have htake : ((file.take off ++ (encodeFrame body ++ tail)).take
      (off + (encodeFrame body).length)).drop start =
      (file.take off).drop start ++ encodeFrame body := by
    have hfile : (file.take off ++ (encodeFrame body ++ tail)).take (off + (encodeFrame body).length) =
        file.take off ++ encodeFrame body := by
      rw [← append_assoc, take_append_of_le_length (by simp [hoff]),
        take_of_length_le (by simp)]
    rw [hfile, drop_append_of_le_length (by simp; omega)]
  have hkey : KeyOf kek (file.take off ++ (encodeFrame body ++ tail)) start key := h.keyOf hopen
  refine ⟨?_, by omega, by simp [hoff], ?_, ?_⟩
  · cases key with
    | none => exact hkey.2
    | some dek => exact hkey
  · rw [htake, extent_append (h.full.trans hpre.symm), extent_of_head_some hhead,
      hdrop, extent_of_head_none head_nil, hpre]
    simp only [walFraming, length_encodeFrame]
    omega
  · rw [htake, frames_append (h.full.trans hpre.symm), frames_of_head_some hhead,
      hdrop, frames_of_head_none head_nil, mapM_append_eq_ok_iff, hpre,
      Nat.add_sub_cancel' hstart]
    refine ⟨rs, h.records, [r], ?_, rfl⟩
    simp only [mapM_cons, mapM_nil, bind_eq_ok_iff, pure_eq_ok_iff, recordAt]
    exact ⟨r, ⟨_, hopen, decode_encodePayload (by omega)⟩, [], rfl, rfl⟩

end Covered

section Moves

variable {used : List (Seal c)} {file buf : Bytes} {w w' : Wal c} {crypto : WalCrypto c} {u : Seal c}

theorem take_setLen (hlen : mark ≤ len) (hmark : mark ≤ file.length) :
    (setLen file len).take mark = file.take mark := by
  rw [setLen, take_append_of_le_length (by simp; omega), take_take, min_eq_left hlen]

theorem take_file_allocate (hlen : mark ≤ len) (hmark : mark ≤ w.file.length) :
    (w.allocate len).file.take mark = w.file.take mark := by
  unfold Wal.allocate
  split
  case isTrue h => exact take_setLen (hlen.trans (le_roundUp len h.1)) hmark
  case isFalse => rfl

@[simp] theorem crypto_allocate {w : Wal c} : (w.allocate finish).crypto = w.crypto := by
  unfold Wal.allocate
  split <;> rfl

theorem mem_seals (h : u ∈ w.seals r) :
    ∃ crypto, w.crypto = some crypto ∧ u = ⟨crypto.dek, w.writeOffset, encodePayload r⟩ := by
  unfold Wal.seals at h
  split at h
  case h_1 => cases h
  case h_2 crypto hcrypto =>
    split at h
    case h_1 => exact ⟨crypto, hcrypto, mem_singleton.mp h⟩
    case h_2 => cases h

theorem NoncesUnique.append_seals (h : NoncesUnique used)
    (hbelow : ∀ crypto ∈ w.crypto, ∀ u ∈ used, u.dek = crypto.dek → u.offset < w.writeOffset) :
    NoncesUnique (used ++ w.seals r) := by
  have hnew : ∀ a ∈ used, ∀ b ∈ w.seals r, a.dek = b.dek → a.offset ≠ b.offset := by
    intro a ha b hb hdek hoff
    obtain ⟨crypto, hcrypto, rfl⟩ := mem_seals hb
    exact absurd hoff (Nat.ne_of_lt (hbelow crypto hcrypto a ha hdek))
  intro a ha b hb hdek hoff
  rcases mem_append.mp ha with ha | ha <;> rcases mem_append.mp hb with hb | hb
  · exact h a ha b hb hdek hoff
  · exact absurd hoff (hnew a ha b hb hdek)
  · exact absurd hoff.symm (hnew b hb a ha hdek.symm)
  · obtain ⟨-, -, rfl⟩ := mem_seals ha
    obtain ⟨-, -, rfl⟩ := mem_seals hb
    rfl

theorem crypto_append (h : w.append r = .ok (w', commit)) : w'.crypto = w.crypto := by
  obtain ⟨body, -, rfl, -⟩ := append_eq_ok_iff.mp h
  exact crypto_allocate

theorem Covers.append (h : Covers kek used w.file w.writeOffset crypto.dek)
    (hcrypto : w.crypto = some crypto) (happend : w.append r = .ok (w', commit))
    (hlt : (encodePayload r).length + tagLen < 2 ^ 32) :
    Covers kek (used ++ w.seals r) w'.file w'.writeOffset crypto.dek := by
  obtain ⟨start, rs, hready⟩ := h.ready
  obtain ⟨body, hbody, rfl, -⟩ := append_eq_ok_iff.mp happend
  have hopen := openBody_frameBody hbody
  rw [hcrypto] at hopen
  have hoff := hready.off_le
  have htake := take_file_allocate
    (Nat.le_add_right w.writeOffset (encodeFrame body).length) hoff
  have hlen := length_le_of_take_eq hoff htake
  have hgrown := hready.congr hlen htake
  refine ⟨⟨start, rs ++ [r], ?_⟩, fun u hu hdek => ?_⟩
  · have hbodyLen : body.length = (encodePayload r).length + tagLen := length_of_openBody hopen
    simp only [writeOffset_allocate]
    rw [writeAllAt_of_le _ hlen]
    exact hgrown.append hopen (by omega)
  · have hpos : w.writeOffset < w.writeOffset + (encodeFrame body).length := by simp
    rcases mem_append.mp hu with hu | hu
    · exact (h.below u hu hdek).trans hpos
    · obtain ⟨-, -, rfl⟩ := mem_seals hu
      exact hpos

end Moves

section Invariant

variable {kek : c.Kek} {used : List (Seal c)} {intact : Bool} {s : LogRun c} {w w' : Wal c} {dir : LogDir}
  {opts : WalOptions c}

-- While the log is intact, the place of the next append lies above everything that
-- was sealed under its key, now or after a restart.
def PhaseSound (kek : c.Kek) (used : List (Seal c)) (intact : Bool) : Phase c → Prop
  | .stopped dir => intact → Resumes kek used (dir.active.getD [])
  | .running w => ∀ crypto ∈ w.crypto, crypto.kek = kek ∧
      (intact → Covers kek used w.file w.writeOffset crypto.dek)

structure LogRun.Sound (kek : c.Kek) (s : LogRun c) : Prop where
  unique : NoncesUnique s.used
  phase : PhaseSound kek s.used s.intact s.phase

theorem mints_eq {file : Bytes} {start : Nat} {dek : Option c.Dek} (hkey : KeyOf opts.kek file start dek)
    (hmap : (walFraming.frames start (file.drop start)).mapM (recordAt dek) = .ok rs) : mints opts draw file =
      if dek.isNone ∧ start + walFraming.extent (file.drop start) = 0 ∧ opts.encryptNew then
        opts.kek.map (fun kek => (c.wrapNewDek kek draw).1) else none := by
  have hrecover := recoverFile_eq_ok_iff.mpr ⟨start, hkey, hmap, rfl⟩
  unfold mints
  rw [hrecover]
  cases dek with
  | some d => simp
  | none =>
    cases hgood : start + walFraming.extent (file.drop start) with
    | zero | succ n => simp

theorem open_phaseSound (hkek : ∀ k ∈ opts.kek, k = kek) (hs : intact → Resumes kek used (dir.active.getD []))
    (hfresh : ∀ dek ∈ mints opts draw (dir.active.getD []), ∀ u ∈ used, u.dek ≠ dek)
    (hopen : Wal.open opts draw dir = .ok (w, rs)) :
    PhaseSound kek used (intact || (mints opts draw (dir.active.getD [])).isSome) (.running w) := by
  obtain ⟨-, old, new, -, -, start, dek, off, base, hkey, hmap, hopened⟩ := open_eq_ok hopen
  intro crypto (hcrypto : w.crypto = some crypto)
  have hk := hopened.kek_eq crypto hcrypto
  have hkeq := hkek _ hk
  rw [hkeq] at hk
  refine ⟨hkeq, fun hintact => ?_⟩
  obtain ⟨start', hready⟩ := ready_of_placement hkey hmap hopened.place
  obtain ⟨n, hn⟩ := reserve_eq
  rw [← hopened.file_eq] at hn
  have hfile : w.file.take off = base.take off := by
    rw [hn, take_append_of_le_length hready.off_le]
  have hbase : Ready (some kek) w.file off (some crypto.dek) start' new := by
    rw [hk, hcrypto] at hready
    exact hready.congr (length_le_of_take_eq hready.off_le hfile) hfile
  rw [hopened.writeOffset]
  refine ⟨⟨start', new, hbase⟩, fun u hu hdek => ?_⟩
  have hplace := hopened.place
  have hmints : mints opts draw (dir.active.getD []) = _ := mints_eq hkey hmap
  unfold placement at hplace
  split at hplace
  case isTrue hempty =>
    rw [if_pos hempty, hk] at hmints
    obtain ⟨k, hk', heq⟩ := map_eq_some_iff.mp hplace
    cases hk.symm.trans hk'
    simp only [Prod.mk.injEq, hcrypto, map_some, Option.some.injEq] at heq
    exact absurd (hdek.trans heq.2.2.symm) (hfresh _ hmints u hu)
  case isFalse hempty =>
    rw [if_neg hempty] at hmints
    rw [hmints, isSome_none, Bool.or_false] at hintact
    simp only [Option.some.injEq, Prod.mk.injEq, hcrypto, map_some] at hplace
    obtain ⟨rfl, -, rfl⟩ := hplace
    rw [hk] at hkey
    exact hs hintact start crypto.dek hkey u hu hdek

private theorem take_length_setLen {header : Bytes} (h : header.length ≤ len) :
    (setLen header len).take header.length = header := by
  rw [take_setLen h (le_refl _), take_length]

section

variable (hs : PhaseSound kek used intact (.running w))

include hs

section

variable (hunused : ∀ crypto ∈ w.crypto, ∀ u ∈ used, u.dek ≠ (c.wrapNewDek crypto.kek draw).1)

include hunused

theorem restart_phaseSound (hcrypto' : w'.crypto = (w.restart draw).1)
    (hoff : w'.writeOffset = (w.restart draw).2.length) (htake : w'.file.take w'.writeOffset = (w.restart draw).2) :
    PhaseSound kek used (intact || w.crypto.isSome) (.running w') := by
  intro crypto' hmem
  rw [hcrypto'] at hmem
  cases hcrypto : w.crypto with
  | none =>
    rw [Wal.restart, hcrypto] at hmem
    cases hmem
  | some crypto =>
    have hkek := (hs crypto hcrypto).1
    simp only [Wal.restart, hcrypto] at hmem hoff htake
    obtain rfl : WalCrypto.fresh crypto.kek draw = crypto' := by simpa using hmem
    rw [length_fresh_header] at hoff
    rw [hoff] at htake ⊢
    have hnew := hunused crypto hcrypto
    rw [hkek] at htake hnew ⊢
    exact ⟨rfl, fun _ => ⟨⟨_, _, ready_fresh rfl htake⟩, fun u hu hdek => absurd hdek (hnew u hu)⟩⟩

theorem rotate_phaseSound : PhaseSound kek used (intact || w.crypto.isSome) (.running (w.rotate seq draw)) := by
  refine restart_phaseSound hs hunused rfl rfl ?_
  show List.take (w.restart draw).2.length (if _ then _ else _) = _
  split
  case isTrue hchunk =>
    exact take_length_setLen ((Nat.le_max_left _ 1).trans (le_roundUp _ hchunk))
  case isFalse => exact take_length

theorem truncate_phaseSound : PhaseSound kek used (intact || w.crypto.isSome) (.running (w.truncate draw)) := by
  refine restart_phaseSound hs hunused rfl rfl (take_length_setLen ?_)
  have hround := le_roundUp (max (w.restart draw).2.length 1)
    (Nat.lt_of_lt_of_le Nat.one_pos (Nat.le_max_right w.preallocChunk 1))
  exact ((Nat.le_max_left _ 1).trans hround).trans (Nat.le_max_left _ _)

end

theorem crash_phaseSound {active : Option Bytes} :
    PhaseSound kek used (intact && w.keeps (active.getD [])) (.stopped ⟨active, segments⟩) := by
  intro hintact
  simp only [Wal.keeps, Bool.and_eq_true, Bool.or_eq_true, decide_eq_true_eq] at hintact
  obtain ⟨hintact, htake, hheader⟩ := hintact
  cases hcrypto : w.crypto with
  | some crypto => exact (((hs crypto hcrypto).2 hintact).congr htake).resumes
  | none =>
    intro start dek hkey
    simp only [hcrypto, isSome_none, Bool.false_eq_true, false_or] at hheader
    have hplain : KeyOf (some kek) (active.getD []) 0 none := ⟨hheader, rfl⟩
    exact absurd (hkey.unique hplain).2 (by simp)

theorem appendFails_phaseSound : PhaseSound kek (used ++ w.seals r) (intact && w.crypto.isNone)
      (.running (w.appendFails body grew written)) := by
  intro crypto hmem
  have hcrypto : (w.appendFails body grew written).crypto = w.crypto := by
    cases grew
    · rfl
    · exact crypto_allocate
  rw [hcrypto] at hmem
  refine ⟨(hs crypto hmem).1, fun hintact => ?_⟩
  rw [mem_def.mp hmem] at hintact
  simp at hintact

variable (hcareful : w.crypto.isSome → intact ∧ (encodePayload r).length + tagLen < 2 ^ 32)

include hcareful

theorem append_phaseSound (happend : w.append r = .ok (w', commit)) :
    PhaseSound kek (used ++ w.seals r) intact (.running w') := by
  intro crypto hmem
  rw [crypto_append happend] at hmem
  obtain ⟨hintact, hlt⟩ := hcareful (isSome_of_mem hmem)
  obtain ⟨hkek, hcovers⟩ := hs crypto hmem
  exact ⟨hkek, fun _ => (hcovers hintact).append hmem happend hlt⟩

theorem append_unique (hunique : NoncesUnique used) : NoncesUnique (used ++ w.seals r) :=
  hunique.append_seals (fun crypto hmem =>
    ((hs crypto hmem).2 (hcareful (isSome_of_mem hmem)).1).below)

end

theorem LogRun.step_sound (hs : s.Sound kek) (e : LogEvent) (hcareful : s.Careful kek e) :
    (s.step kek e).Sound kek := by
  obtain ⟨phase, used, intact⟩ := s
  obtain ⟨hunique, hphase⟩ := hs
  cases e with
  | opened chunk keyed encryptNew draw =>
    cases phase with
    | running w => exact ⟨hunique, hphase⟩
    | stopped dir =>
      simp only [LogRun.step]
      split
      case h_1 => exact ⟨hunique, hphase⟩
      case h_2 w rs hopen =>
        refine ⟨hunique, open_phaseSound (fun k hk => ?_) hphase hcareful hopen⟩
        cases keyed <;> simp_all [openOptions]
  | append r =>
    cases phase with
    | stopped dir => exact ⟨hunique, hphase⟩
    | running w =>
      simp only [LogRun.step]
      split
      case h_1 => exact ⟨hunique, hphase⟩
      case h_2 w' commit happend =>
        exact ⟨append_unique hphase hcareful hunique, append_phaseSound hphase hcareful happend⟩
  | appendFails r grew written =>
    cases phase with
    | stopped dir => exact ⟨hunique, hphase⟩
    | running w =>
      simp only [LogRun.step]
      split
      case h_1 => exact ⟨hunique, hphase⟩
      case h_2 body hbody =>
        exact ⟨append_unique hphase hcareful hunique, appendFails_phaseSound hphase⟩
  | rotate seq draw =>
    cases phase with
    | stopped dir => exact ⟨hunique, hphase⟩
    | running w => exact ⟨hunique, rotate_phaseSound hphase hcareful⟩
  | truncate draw =>
    cases phase with
    | stopped dir => exact ⟨hunique, hphase⟩
    | running w => exact ⟨hunique, truncate_phaseSound hphase hcareful⟩
  | crash active =>
    cases phase with
    | stopped dir => exact ⟨hunique, hphase⟩
    | running w => exact ⟨hunique, crash_phaseSound hphase⟩

-- In every run in which appends to an encrypted log are made only while it is intact,
-- no two payloads are sealed under one key and one nonce.
theorem nonces_unique (kek : c.Kek) (dir : LogDir) (events : List LogEvent)
    (hrun : Along (LogRun.step kek) (LogRun.Careful kek) (LogRun.start dir) events) :
    NoncesUnique ((LogRun.start dir).run kek events).used := by
  have hinit : (LogRun.start dir).Sound kek :=
    ⟨fun a ha => absurd ha (by simp [LogRun.start]),
      fun _ start dek _ u hu => absurd hu (by simp [LogRun.start])⟩
  have hstep : ∀ (s : LogRun c) e, s.Sound kek → s.Careful kek e →
      (s.step kek e).Sound kek := fun s e hs he => LogRun.step_sound hs e he
  exact (Along.invariant hstep hrun hinit).unique

section Samples

instance : DecidableEq clearCipher.Dek := inferInstanceAs (DecidableEq UInt8)

def clearKek : clearCipher.Kek := ()

def oneSealed (draw : Nat) (r : WalRecord) : Bytes :=
  (WalCrypto.fresh clearKek draw).header ++
    encodeFrame (encodePayload r ++ List.replicate tagLen (UInt8.ofNat draw))

def carefulEvents : List LogEvent :=
  [.opened 0 true true 1, .append (erased 1), .appendFails (erased 2) false 5, .rotate 0 2,
    .append (erased 3), .crash (some (oneSealed 2 (erased 3))), .opened 0 true true 3,
    .append (erased 4)]

theorem nonces_unique_rotated :
    NoncesUnique ((LogRun.start ⟨none, OrdMap.empty⟩).run clearKek carefulEvents).used :=
  nonces_unique clearKek ⟨none, OrdMap.empty⟩ carefulEvents (by decide +kernel)

-- The crash leaves the first 10 bytes of the first record's frame. The next open keeps
-- the key and goes on at the same offset.
def tornEvents : List LogEvent :=
  [.opened 0 true true 1, .append (erased 1),
    .crash (some ((oneSealed 1 (erased 1)).take (walEncHeaderLen + 10))), .opened 0 true true 2,
    .append (erased 2)]

theorem torn_append_repeats_nonce :
    ¬ NoncesUnique ((LogRun.start ⟨none, OrdMap.empty⟩).run clearKek tornEvents).used := by
  intro h
  have hused : ((LogRun.start ⟨none, OrdMap.empty⟩).run clearKek tornEvents).used =
      [⟨(1 : UInt8), walEncHeaderLen, encodePayload (erased 1)⟩,
        ⟨(1 : UInt8), walEncHeaderLen, encodePayload (erased 2)⟩] := by
    decide
  have heq := h _ (.head _) _ (.tail _ (.head _)) rfl rfl
  exact absurd heq (by decide)

end Samples

end Invariant

end Skaidb.Storage.WalFormat
