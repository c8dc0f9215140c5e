import Skaidb.Base.Results
import Skaidb.Storage.WalFormat

namespace Skaidb.Storage

open Skaidb.Base Skaidb.Types List Option

namespace Hlc

private theorem beBytes_eq {u : UInt64} : beBytes u = (leBytes 8 u.toNat).reverse := by
  simp only [beBytes, leBytes, reverse_cons, reverse_nil, nil_append,
    cons_append, List.cons.injEq, and_true, ← UInt8.toNat_inj, UInt64.toNat_toUInt8,
    UInt64.toNat_shiftRight, UInt8.toNat_ofNat', Nat.shiftRight_eq_div_pow]
  simp
  omega

private theorem beBytes_drop_eq {u : UInt32} : (beBytes u.toUInt64).drop 4 = (leBytes 4 u.toNat).reverse := by
  rw [beBytes_eq]
  simp [leBytes]

theorem toBytes_eq {h : Hlc} :
    h.toBytes = (leBytes 8 h.physical.toNat).reverse ++ (leBytes 4 h.logical.toNat).reverse := by
  rw [toBytes, beBytes_eq, beBytes_drop_eq]

@[simp] theorem length_toBytes (h : Hlc) : h.toBytes.length = 12 := by
  simp [toBytes_eq]

theorem fromBytes_toBytes (h : Hlc) : fromBytes h.toBytes = h := by
  have hp : UInt64.ofNat (h.physical.toNat % 256 ^ 8) = h.physical := by
    rw [← UInt64.toNat_inj, UInt64.toNat_ofNat']
    have := h.physical.toNat_lt
    omega
  have hl : UInt32.ofNat (h.logical.toNat % 256 ^ 4) = h.logical := by
    rw [← UInt32.toNat_inj, UInt32.toNat_ofNat']
    have := h.logical.toNat_lt
    omega
  have htake : h.toBytes.take 8 = (leBytes 8 h.physical.toNat).reverse := by simp [toBytes_eq]
  have hdrop : h.toBytes.drop 8 = (leBytes 4 h.logical.toNat).reverse := by simp [toBytes_eq]
  rw [fromBytes, htake, hdrop, reverse_reverse, reverse_reverse, leNat_leBytes,
    leNat_leBytes, hp, hl]

theorem toBytes_fromBytes {bytes : Bytes} (h : bytes.length = 12) : (fromBytes bytes).toBytes = bytes := by
  have hp := leBytes_leNat (bytes.take 8).reverse
  have hl := leBytes_leNat (bytes.drop 8).reverse
  have hplt := leNat_lt (bytes.take 8).reverse
  have hllt := leNat_lt (bytes.drop 8).reverse
  simp only [length_reverse, length_take, length_drop, h] at hp hl hplt hllt
  have hpn : (UInt64.ofNat (leNat (bytes.take 8).reverse)).toNat = leNat (bytes.take 8).reverse := by
    exact Nat.mod_eq_of_lt (by simpa using hplt)
  have hln : (UInt32.ofNat (leNat (bytes.drop 8).reverse)).toNat = leNat (bytes.drop 8).reverse := by
    exact Nat.mod_eq_of_lt (by simpa using hllt)
  rw [toBytes_eq, fromBytes, hpn, hln]
  simp only [Nat.reduceSub, Nat.reduceLeDiff, inf_of_le_left] at hp hl
  rw [hp, hl, reverse_reverse, reverse_reverse, take_append_drop]

end Hlc

namespace WalFormat

section Payload

variable {p a b : Bytes} {r : WalRecord}

theorem take_eq_ok_iff : take offset n p = .ok (a, b) ↔ p = a ++ b ∧ a.length = n := by
  unfold take
  constructor
  · intro h
    split at h
    case isTrue hn =>
      cases h
      exact ⟨(take_append_drop n p).symm, by simpa using hn⟩
    case isFalse => cases h
  · rintro ⟨rfl, rfl⟩
    simp

def Fits (r : WalRecord) : Prop :=
  r.key.length < 2 ^ 32 ∧ ∀ value, r.op = .put value → value.length < 2 ^ 32

private theorem eq_leBytes {bs : Bytes} (h : bs.length = 4) : bs = leBytes 4 (leNat bs) := by
  conv_lhs => rw [← leBytes_leNat bs, h]

private theorem leNat_four_lt {bs : Bytes} (h : bs.length = 4) : leNat bs < 2 ^ 32 := by
  have := leNat_lt bs
  rw [h] at this
  omega

theorem decodePayload_eq_ok_iff :
    decodePayload p offset = .ok r ↔ Fits r ∧ ∃ rest, p = encodePayload r ++ rest := by
  constructor
  · intro h
    simp only [decodePayload, bind_eq_ok_iff, Prod.exists, take_eq_ok_iff] at h
    obtain ⟨op, p₁, ⟨rfl, hop⟩, hlc, p₂, ⟨rfl, hhlc⟩, keyLen, p₃, ⟨rfl, hkl⟩, key, p₄, ⟨rfl, hk⟩, h⟩ := h
    have hkey := leNat_four_lt hkl
    split at h
    case isTrue hput =>
      simp only [bind_eq_ok_iff, Prod.exists, take_eq_ok_iff, pure_eq_ok_iff] at h
      obtain ⟨valLen, p₅, ⟨rfl, hvl⟩, val, p₆, ⟨rfl, hv⟩, rfl⟩ := h
      have hval := leNat_four_lt hvl
      refine ⟨⟨by simpa [hk] using hkey, fun value heq => ?_⟩, p₆, ?_⟩
      · cases heq
        rw [hv]
        exact hval
      · simp [encodePayload, encodeValue, opByte, Hlc.toBytes_fromBytes hhlc, hk, hv, hput,
          ← eq_leBytes hkl, ← eq_leBytes hvl]
    case isFalse hput =>
      split at h
      case isTrue hdel =>
        rw [pure_eq_ok_iff] at h
        subst h
        refine ⟨⟨by simpa [hk] using hkey, fun value heq => by cases heq⟩, p₄, ?_⟩
        simp [encodePayload, encodeValue, opByte, Hlc.toBytes_fromBytes hhlc, hk, hdel,
          ← eq_leBytes hkl]
      case isFalse => cases h
  · rintro ⟨⟨hkey, hval⟩, rest, rfl⟩
    have hbytes : encodePayload r ++ rest = [opByte r.op] ++ (r.hlc.toBytes ++
        (leBytes 4 r.key.length ++ (r.key ++ (encodeValue r.op ++ rest)))) := by
      simp [encodePayload]
    simp only [decodePayload, bind_eq_ok_iff, Prod.exists]
    refine ⟨_, _, take_eq_ok_iff.mpr ⟨hbytes, rfl⟩, _, _, take_eq_ok_iff.mpr ⟨rfl, by simp⟩, _, _,
      take_eq_ok_iff.mpr ⟨rfl, by simp⟩, _, _, take_eq_ok_iff.mpr ⟨rfl, ?_⟩, ?_⟩
    · rw [leNat_leBytes, Nat.mod_eq_of_lt (by simpa using hkey)]
    · obtain ⟨hlc, key, op⟩ := r
      cases op with
      | delete => simp [opByte, opPut, opDelete, Hlc.fromBytes_toBytes, pure_eq_ok_iff]
      | put value =>
        have hvalue := hval value rfl
        simp only [opByte, if_true, bind_eq_ok_iff, Prod.exists, pure_eq_ok_iff]
        refine ⟨leBytes 4 value.length, value ++ rest, take_eq_ok_iff.mpr ⟨?_, by simp⟩,
          value, rest, take_eq_ok_iff.mpr ⟨rfl, ?_⟩, ?_⟩
        · rw [encodeValue, append_assoc]
        · rw [leNat_leBytes, Nat.mod_eq_of_lt (by simpa using hvalue)]
        · rw [Hlc.fromBytes_toBytes]

theorem length_encodePayload (r : WalRecord) :
    (encodePayload r).length = 17 + r.key.length + (encodeValue r.op).length := by
  simp [encodePayload]
  omega

theorem fits_of_length_lt (h : (encodePayload r).length < 2 ^ 32) : Fits r := by
  rw [length_encodePayload] at h
  refine ⟨by omega, fun value hvalue => ?_⟩
  rw [hvalue] at h
  simp only [encodeValue, length_append, length_leBytes] at h
  omega

theorem decode_encodePayload (h : (encodePayload r).length < 2 ^ 32) :
    decodePayload (encodePayload r) offset = .ok r :=
  decodePayload_eq_ok_iff.mpr ⟨fits_of_length_lt h, [], by simp⟩

end Payload

section Frames

variable {xs a b body : Bytes}

theorem readExact_eq_some_iff : readExact n xs = some (a, b) ↔ xs = a ++ b ∧ a.length = n := by
  unfold readExact
  constructor
  · intro h
    split at h
    case isTrue hn =>
      cases h
      exact ⟨(take_append_drop n xs).symm, by simpa using hn⟩
    case isFalse => cases h
  · rintro ⟨rfl, rfl⟩
    simp

@[simp] theorem length_encodeFrame (body : Bytes) : (encodeFrame body).length = 4 + body.length + 4 := by
  simp [encodeFrame]
  omega

private theorem crc_toNat : leNat (leBytes 4 (crc32 body).toNat) = (crc32 body).toNat := by
  rw [leNat_leBytes]
  have := (crc32 body).toNat_lt
  omega

theorem readFrame_eq_some_iff : readFrame xs = some body ↔
      (body ≠ [] ∧ body.length < 2 ^ 32) ∧ ∃ rest, xs = encodeFrame body ++ rest := by
  constructor
  · intro h
    simp only [readFrame, bind_eq_bind, bind_eq_some_iff, Prod.exists,
      readExact_eq_some_iff] at h
    obtain ⟨lenBuf, xs₁, ⟨rfl, hlen⟩, h⟩ := h
    split at h
    case isTrue => cases h
    case isFalse hzero =>
      simp only [bind_eq_some_iff, Prod.exists, readExact_eq_some_iff] at h
      obtain ⟨frame, xs₂, ⟨rfl, hframe⟩, crcBuf, rest, ⟨rfl, hcrcLen⟩, h⟩ := h
      split at h
      case isTrue hcrc =>
        cases h
        have hlt := leNat_four_lt hlen
        refine ⟨⟨?_, by omega⟩, rest, ?_⟩
        · rintro rfl
          exact hzero (by simpa using hframe.symm)
        · rw [encodeFrame, hframe, ← hcrc, ← eq_leBytes hlen, ← eq_leBytes hcrcLen]
          simp
      case isFalse => cases h
  · rintro ⟨⟨hne, hlt⟩, rest, rfl⟩
    have hlen : leNat (leBytes 4 body.length) = body.length := by
      rw [leNat_leBytes, Nat.mod_eq_of_lt (by simpa using hlt)]
    simp only [readFrame, bind_eq_bind, bind_eq_some_iff, Prod.exists]
    refine ⟨leBytes 4 body.length, body ++ leBytes 4 (crc32 body).toNat ++ rest,
      readExact_eq_some_iff.mpr ⟨by simp [encodeFrame], by simp⟩, ?_⟩
    rw [hlen, if_neg (by simpa using hne)]
    simp only [bind_eq_some_iff, Prod.exists]
    refine ⟨_, _, readExact_eq_some_iff.mpr ⟨append_assoc _ _ _, rfl⟩, _, _,
      readExact_eq_some_iff.mpr ⟨rfl, by simp⟩, ?_⟩
    rw [if_pos crc_toNat]

def walFraming : Framing UInt8 Bytes where
  head := readFrame
  size body := 4 + body.length + 4
  size_pos body := by omega
  size_le h := by
    obtain ⟨-, rest, rfl⟩ := readFrame_eq_some_iff.mp h
    rw [List.length_append, length_encodeFrame]
    omega
  head_congr {xs b} h ys htake hlen := by
    obtain ⟨hb, rest, rfl⟩ := readFrame_eq_some_iff.mp h
    refine readFrame_eq_some_iff.mpr ⟨hb, ys.drop (4 + b.length + 4), ?_⟩
    rw [List.take_append_of_le_length (by simp), ← length_encodeFrame, List.take_length] at htake
    rw [← htake, ← length_encodeFrame, List.take_append_drop]

end Frames

end WalFormat

end Skaidb.Storage
