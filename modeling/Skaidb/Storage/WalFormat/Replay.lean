import Skaidb.Storage.WalFormat.Records

namespace Skaidb.Storage.WalFormat

open Skaidb.Base List Framing

variable {c : Cipher}

section Scan

def recordAt (dek : Option c.Dek) (f : Nat × Bytes) : Result WalRecord := do
  let payload ← openBody dek f.1 f.2
  decodePayload payload f.1

-- Replay is a scan of the frames: fuel for every byte is always enough.
theorem replay_eq_ok_iff {dek : Option c.Dek} {xs : Bytes} (h : xs.length ≤ fuel) :
    replay dek fuel pos xs = .ok (rs, len) ↔ (walFraming.frames pos xs).mapM (recordAt dek) = .ok rs ∧
        len = pos + walFraming.extent xs := by
  induction xs using walFraming.induction generalizing fuel pos len rs with
  | none xs hnone =>
    have hread : readFrame xs = none := hnone
    rw [frames_of_head_none hnone, extent_of_head_none hnone, mapM_nil,
      pure_eq_ok_iff]
    cases fuel <;> simp [replay, hread, eq_comm]
  | some xs frame hsome ih =>
    have hread : readFrame xs = some frame := hsome
    have hlt := drop_length_lt hsome
    obtain ⟨fuel, rfl⟩ : ∃ n, fuel = n + 1 := ⟨fuel - 1, by omega⟩
    rw [frames_of_head_some hsome, extent_of_head_some hsome, mapM_cons]
    simp only [replay, hread, recordAt, bind_eq_ok_iff, pure_eq_ok_iff, Prod.exists,
      Prod.mk.injEq]
    constructor
    · rintro ⟨payload, hopen, r, hdecode, rs', len', hrest, rfl, rfl⟩
      obtain ⟨hframes, rfl⟩ := (ih (by omega)).mp hrest
      exact ⟨⟨r, ⟨payload, hopen, hdecode⟩, rs', hframes, rfl⟩, Nat.add_assoc _ _ _⟩
    · rintro ⟨⟨r, ⟨payload, hopen, hdecode⟩, rs', hrest, rfl⟩, rfl⟩
      exact ⟨payload, hopen, r, hdecode, rs', _, (ih (by omega)).mpr ⟨hrest, rfl⟩, rfl,
        Nat.add_assoc _ (walFraming.size frame) _⟩

end Scan

section Header

variable {file file' wrapped : Bytes}

def HeaderOf (file wrapped : Bytes) : Prop :=
  walEncHeaderLen ≤ file.length ∧ wrapped.length < 2 ^ 16 ∧ ∃ rest, file = encHeader wrapped ++ rest

@[simp] theorem length_encHeader (wrapped : Bytes) : (encHeader wrapped).length = 10 + wrapped.length := by
  simp [encHeader, walEncMagic]
  omega

theorem readEncHeader_eq_some_iff : readEncHeader file = .ok (some (wrapped, len)) ↔
      HeaderOf file wrapped ∧ len = 10 + wrapped.length := by
  unfold readEncHeader
  constructor
  · intro h
    split at h
    case isTrue => cases h
    case isFalse hlen =>
      split at h
      case isTrue => cases h
      case isFalse hmagic =>
        split at h
        case isTrue => cases h
        case isFalse hwrapped =>
          cases h
          have htwo : ((file.drop 8).take 2).length = 2 := by
            simp only [length_take, length_drop, walEncHeaderLen, walWrappedDekLen] at hlen ⊢
            omega
          have hle := leBytes_leNat ((file.drop 8).take 2)
          have hlt := leNat_lt ((file.drop 8).take 2)
          have hlength : ((file.drop 10).take (leNat ((file.drop 8).take 2))).length =
              leNat ((file.drop 8).take 2) := by
            simp only [length_take, length_drop]
            omega
          rw [htwo] at hle hlt
          refine ⟨⟨by omega, by omega, (file.drop 10).drop (leNat ((file.drop 8).take 2)), ?_⟩, by omega⟩
          rw [encHeader, hlength, hle, ← not_not.mp hmagic, append_assoc, append_assoc,
            take_append_drop]
          conv_lhs => rw [← take_append_drop 8 file, ← take_append_drop 2 (file.drop 8),
            drop_drop]
  · rintro ⟨⟨hlen, hw, rest, rfl⟩, rfl⟩
    have hmod : wrapped.length % 65536 = wrapped.length := Nat.mod_eq_of_lt (by simpa using hw)
    have htwo : (((encHeader wrapped ++ rest).drop 8).take 2) = leBytes 2 wrapped.length := by
      simp [encHeader, walEncMagic, leBytes]
    have hmagic : (encHeader wrapped ++ rest).take 8 = walEncMagic := by
      simp [encHeader, walEncMagic]
    rw [htwo, leNat_leBytes, hmagic, if_neg (by omega), if_neg (by simp)]
    rw [if_neg]
    · simp [encHeader, walEncMagic, hmod, leBytes]
    · simp [hmod]

theorem HeaderOf.congr (h : HeaderOf file wrapped) (hlen : walEncHeaderLen ≤ file'.length)
    (htake : file'.take (10 + wrapped.length) = file.take (10 + wrapped.length)) : HeaderOf file' wrapped := by
  obtain ⟨hfile, hw, rest, rfl⟩ := h
  refine ⟨hlen, hw, file'.drop (10 + wrapped.length), ?_⟩
  rw [take_append_of_le_length (by simp), ← length_encHeader, take_length] at htake
  conv_lhs => rw [← take_append_drop (encHeader wrapped).length file', htake]
  rw [length_encHeader]

-- A frame of a record has its op byte where the magic has a byte of its own.
theorem readEncHeader_of_frame (r : WalRecord) (rest rest' : Bytes) :
    readEncHeader (encodeFrame (encodePayload r ++ rest) ++ rest') = .ok none := by
  have hmagic : (encodeFrame (encodePayload r ++ rest) ++ rest').take 8 ≠ walEncMagic := by
    intro h
    have hfive := congrArg (fun bs => bs.getD 4 0) h
    simp only [encodeFrame, encodePayload, leBytes, walEncMagic] at hfive
    simp at hfive
    cases hop : r.op <;> rw [hop] at hfive <;> simp [opByte, opPut, opDelete] at hfive
  unfold readEncHeader
  rw [if_pos hmagic, ite_self]

end Header

section Recovery

variable {file : Bytes} {dek dek' : Option c.Dek}

def HeaderKey (kek : Option c.Kek) (file : Bytes) (start : Nat) (dek : c.Dek) : Prop :=
  ∃ wrapped k, HeaderOf file wrapped ∧ start = 10 + wrapped.length ∧ kek = some k ∧
    c.unwrapDek k wrapped = .ok dek

def KeyOf (kek : Option c.Kek) (file : Bytes) (start : Nat) : Option c.Dek → Prop
  | none => readEncHeader file = .ok none ∧ start = 0
  | some dek => HeaderKey kek file start dek

theorem KeyOf.unique (h : KeyOf kek file start dek) (h' : KeyOf kek file start' dek') :
    start = start' ∧ dek = dek' := by
  cases dek with
  | none =>
    cases dek' with
    | none => exact ⟨h.2.trans h'.2.symm, rfl⟩
    | some d' =>
      obtain ⟨wrapped, -, hheader, -, -, -⟩ := h'
      rw [KeyOf, readEncHeader_eq_some_iff.mpr ⟨hheader, rfl⟩] at h
      cases h.1
  | some d =>
    obtain ⟨wrapped, k, hheader, rfl, rfl, hd⟩ := h
    cases dek' with
    | none =>
      rw [KeyOf, readEncHeader_eq_some_iff.mpr ⟨hheader, rfl⟩] at h'
      cases h'.1
    | some d' =>
      obtain ⟨wrapped', k', hheader', rfl, hk, hd'⟩ := h'
      have hread := readEncHeader_eq_some_iff.mpr ⟨hheader, rfl⟩
      rw [readEncHeader_eq_some_iff.mpr ⟨hheader', rfl⟩] at hread
      cases hread
      cases hk
      rw [hd] at hd'
      cases hd'
      exact ⟨rfl, rfl⟩

theorem HeaderKey.start_eq {dek : c.Dek} (h : HeaderKey kek file start dek) : start = walEncHeaderLen := by
  obtain ⟨wrapped, k, -, rfl, -, hd⟩ := h
  rw [c.length_unwrapped hd]
  rfl

theorem KeyOf.start_le (h : KeyOf kek file start dek) : start ≤ file.length := by
  cases dek with
  | none => simp [h.2]
  | some d =>
    obtain ⟨wrapped, -, ⟨-, -, rest, rfl⟩, rfl, -, -⟩ := h
    simp

theorem recoverFile_eq_ok_iff : recoverFile kek file = .ok (rs, good, dek) ↔ ∃ start, KeyOf kek file start dek ∧
        (walFraming.frames start (file.drop start)).mapM (recordAt dek) = .ok rs ∧
          good = start + walFraming.extent (file.drop start) := by
  simp only [recoverFile, bind_eq_ok_iff]
  constructor
  · rintro ⟨header, hheader, h⟩
    cases header with
    | none =>
      simp only [bind_eq_ok_iff, Prod.exists, pure_eq_ok_iff, Prod.mk.injEq,
        replay_eq_ok_iff (le_refl file.length)] at h
      obtain ⟨rs, good, ⟨hrs, hgood⟩, rfl, rfl, rfl⟩ := h
      exact ⟨0, ⟨hheader, rfl⟩, by simpa using hrs, by simpa using hgood⟩
    | some header =>
      obtain ⟨wrapped, len⟩ := header
      cases kek with
      | none => cases h
      | some k =>
        have hdrop : (file.drop len).length ≤ file.length := by simp
        simp only [bind_eq_ok_iff, Prod.exists, pure_eq_ok_iff, Prod.mk.injEq,
          replay_eq_ok_iff hdrop] at h
        obtain ⟨d, hd, rs, good, ⟨hrs, hgood⟩, rfl, rfl, rfl⟩ := h
        obtain ⟨hof, rfl⟩ := readEncHeader_eq_some_iff.mp hheader
        exact ⟨_, ⟨wrapped, k, hof, rfl, rfl, hd⟩, hrs, hgood⟩
  · rintro ⟨start, hkey, hrs, hgood⟩
    cases dek with
    | none =>
      obtain ⟨hheader, rfl⟩ := hkey
      refine ⟨none, hheader, ?_⟩
      simp only [bind_eq_ok_iff, Prod.exists, pure_eq_ok_iff, Prod.mk.injEq,
        replay_eq_ok_iff (le_refl file.length)]
      exact ⟨rs, good, ⟨by simpa using hrs, by simpa using hgood⟩, rfl, rfl, trivial⟩
    | some d =>
      obtain ⟨wrapped, k, hof, rfl, rfl, hd⟩ := hkey
      refine ⟨some (wrapped, 10 + wrapped.length), readEncHeader_eq_some_iff.mpr ⟨hof, rfl⟩, ?_⟩
      have hdrop : (file.drop (10 + wrapped.length)).length ≤ file.length := by simp
      simp only [bind_eq_ok_iff, Prod.exists, pure_eq_ok_iff, Prod.mk.injEq,
        replay_eq_ok_iff hdrop]
      exact ⟨d, hd, rs, good, ⟨hrs, hgood⟩, rfl, rfl, rfl⟩

end Recovery

end Skaidb.Storage.WalFormat
