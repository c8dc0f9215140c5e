import Skaidb.Base.Reader
import Skaidb.Base.LittleEndian
import Skaidb.Types.Value
import Mathlib.Tactic.Ring

namespace Skaidb.Tsdb

open Skaidb.Base Skaidb.Types

inductive TsdbError where
  | io (message : String)
  | corrupt (message : String)
  | outOfOrder (ts last : Int64)
  | oooBufferFull
  | seriesLimit (limit : Nat)
  | invalid (message : String)
  deriving DecidableEq, Repr

abbrev Result (α : Type) := Except TsdbError α

section Put

-- Seven bits a byte, the lowest first; the high bit says that more follow.
def putUvarintLoop : Nat → Nat → Bytes
  | 0, _ => []
  | bytes + 1, v =>
    if v / 128 = 0 then [UInt8.ofNat (v % 128)]
    else UInt8.ofNat (v % 128 + 128) :: putUvarintLoop bytes (v / 128)

-- A `u64` takes at most ten bytes.
def putUvarint (v : Nat) : Bytes := putUvarintLoop 10 v

def zigzag (v : Int64) : UInt64 := ((v <<< 1) ^^^ (v >>> 63)).toUInt64

def putVarint (v : Int64) : Bytes := putUvarint (zigzag v).toNat

def putBytes (b : Bytes) : Bytes := putUvarint b.length ++ b

end Put

abbrev Dec (α : Type) := Reader UInt8 TsdbError α

namespace Dec

def corrupt (what : String) : TsdbError := .corrupt s!"truncated {what}"

def u8 : Dec UInt8
  | [] => .error (corrupt "byte")
  | b :: rest => .ok (b, rest)

-- What is read so far lies below `2 ^ shift`, so the bits of the next byte are added.
-- Bits shifted out of the word are lost.
def uvarintFrom : (v shift : Nat) → Dec Nat
  | _, _, [] => .error (corrupt "byte")
  | v, shift, byte :: rest =>
    let v := (v + byte.toNat % 128 * 2 ^ shift) % 2 ^ 64
    if byte.toNat < 128 then .ok (v, rest)
    else if 64 ≤ shift + 7 then .error (corrupt "uvarint")
    else uvarintFrom v (shift + 7) rest

def uvarint : Dec Nat := uvarintFrom 0 0

def unzigzag (u : UInt64) : Int64 := (u >>> 1).toInt64 ^^^ -(u &&& 1).toInt64

def varint : Dec Int64 := do return unzigzag (UInt64.ofNat (← uvarint))

def slice (n : Nat) (what : String) : Dec Bytes := fun ahead =>
  if n ≤ ahead.length then .ok (ahead.take n, ahead.drop n)
  else .error (corrupt what)

def u64Le : Dec UInt64 := do return UInt64.ofNat (leNat (← slice 8 "u64"))

def bytes : Dec Bytes := do slice (← uvarint) "bytes"

def string : Dec String := do
  match String.fromUTF8? ⟨(← bytes).toArray⟩ with
  | some s => return s
  | none => Reader.fail (.corrupt "invalid utf-8")

end Dec

section Reads

open Reader

namespace Dec

theorem reads_u8 (b : UInt8) : Reads u8 [b] b := fun _ => rfl

theorem reads_slice (b : Bytes) (what : String) : Reads (slice b.length what) b b := by
  intro rest
  simp [slice]

theorem reads_u64Le {v : UInt64} : Reads u64Le (leBytes 8 v.toNat) v := by
  have hread := (reads_slice (leBytes 8 v.toNat) "u64").map (fun b => UInt64.ofNat (leNat b))
  rw [length_leBytes, leNat_leBytes, Nat.mod_eq_of_lt (by simpa using v.toNat_lt),
    UInt64.ofNat_toNat] at hread
  exact hread

private theorem uvarintFrom_last (hn : n / 128 = 0) (hword : v + n * 2 ^ shift < 2 ^ 64) :
    Reads (uvarintFrom v shift) [UInt8.ofNat (n % 128)] (v + n * 2 ^ shift) := by
  intro rest
  have hbyte : (UInt8.ofNat (n % 128)).toNat = n := by
    rw [UInt8.toNat_ofNat']
    omega
  have hmod : n % 128 = n := by omega
  rw [List.singleton_append, uvarintFrom, hbyte, if_pos (by omega), hmod, Nat.mod_eq_of_lt hword]

-- The digits still to be read, at the place of the next one. There is a next byte only
-- if the word has room for it.
theorem reads_uvarintFrom (hdigits : n < 128 ^ (more + 1)) (hword : v + n * 2 ^ shift < 2 ^ 64) :
    Reads (uvarintFrom v shift) (putUvarintLoop (more + 1) n) (v + n * 2 ^ shift) := by
  induction more generalizing v n shift with
  | zero =>
    have hlast : n / 128 = 0 := by omega
    rw [putUvarintLoop, if_pos hlast]
    exact uvarintFrom_last hlast hword
  | succ more ih =>
    rw [putUvarintLoop]
    split_ifs with hlast
    · exact uvarintFrom_last hlast hword
    · intro rest
      have hbyte : (UInt8.ofNat (n % 128 + 128)).toNat = n % 128 + 128 := by
        rw [UInt8.toNat_ofNat']
        omega
      have hsplit : v + n % 128 * 2 ^ shift + n / 128 * 2 ^ (shift + 7) = v + n * 2 ^ shift := by
        conv_rhs => rw [← Nat.div_add_mod n 128]
        ring
      have hroom : shift + 7 < 64 := by
        refine (Nat.pow_lt_pow_iff_right (by omega)).mp (Nat.lt_of_le_of_lt ?_ hword)
        calc 2 ^ (shift + 7) ≤ n / 128 * 2 ^ (shift + 7) := Nat.le_mul_of_pos_left _ (by omega)
          _ ≤ v + n * 2 ^ shift := by omega
      have hdigits' : n / 128 < 128 ^ (more + 1) := by
        exact Nat.div_lt_of_lt_mul (by omega)
      have hread := ih hdigits' (show v + n % 128 * 2 ^ shift + n / 128 * 2 ^ (shift + 7) < 2 ^ 64 by omega) rest
      rw [List.cons_append, uvarintFrom, hbyte, if_neg (by omega), if_neg (by omega),
        show (n % 128 + 128) % 128 = n % 128 by omega, Nat.mod_eq_of_lt (by omega), hread, hsplit]

theorem reads_uvarint (h : n < 2 ^ 64) : Reads uvarint (putUvarint n) n := by
  have hread := reads_uvarintFrom (show n < 128 ^ 10 by omega)
    (show 0 + n * 2 ^ 0 < 2 ^ 64 by omega)
  rwa [Nat.pow_zero, Nat.mul_one, Nat.zero_add] at hread

private theorem getElem_ones (hi : i < 64) : (18446744073709551615#64)[i] = true :=
  BitVec.getElem_allOnes i hi

private theorem sshiftRight_sign {x : BitVec 64} :
    x.sshiftRight 63 = if x[63] then 18446744073709551615#64 else 0#64 := by
  ext i hi
  rw [BitVec.getElem_sshiftRight, BitVec.msb_eq_getLsbD_last x, BitVec.getLsbD_eq_getElem (by omega)]
  by_cases h : 63 + i < 64
  · have h0 : i = 0 := by omega
    subst h0
    cases hx : x[63] <;> simp [hx]
  · cases x[63] <;> simp [h, getElem_ones]

-- A set bit 0 is the sign: then every bit of the rest was flipped.
private theorem unzigzag_zigzag_bits {x : BitVec 64} :
    ((x <<< 1 ^^^ x.sshiftRight 63) >>> 1) ^^^ -((x <<< 1 ^^^ x.sshiftRight 63) &&& 1#64) = x := by
  have hlow : (x <<< 1 ^^^ x.sshiftRight 63) &&& 1#64 = if x[63] then 1#64 else 0#64 := by
    rw [sshiftRight_sign]
    ext i hi
    by_cases h0 : i = 0
    · subst h0
      cases x[63] <;> simp
    · cases x[63] <;> simp [h0]
  rw [hlow, sshiftRight_sign]
  ext i hi
  by_cases hi' : i = 63
  · subst hi'
    cases hx : x[63] <;> simp
  · have h1 : 1 + i < 64 := by omega
    cases x[63] <;> simp [h1, getElem_ones]

theorem unzigzag_zigzag : unzigzag (zigzag v) = v := by
  rw [← Int64.toBitVec_inj]
  simpa [unzigzag, zigzag] using unzigzag_zigzag_bits

theorem reads_varint : Reads varint (putVarint v) v := by
  have hread := (reads_uvarint (zigzag v).toNat_lt).map (fun u => unzigzag (UInt64.ofNat u))
  rwa [UInt64.ofNat_toNat, unzigzag_zigzag] at hread

theorem reads_bytes {b : Bytes} (h : b.length < 2 ^ 64) : Reads bytes (putBytes b) b :=
  (reads_uvarint h).bind (reads_slice b "bytes")

theorem reads_string (h : (utf8 s).length < 2 ^ 64) : Reads string (putBytes (utf8 s)) s := by
  have hread := (reads_bytes h).bind (f := fun b => match String.fromUTF8? ⟨b.toArray⟩ with
    | some s => return s
    | none => Reader.fail (.corrupt "invalid utf-8")) (by rw [fromUTF8?_utf8]; exact Reads.pure s)
  rwa [List.append_nil] at hread

end Dec

end Reads

end Skaidb.Tsdb
