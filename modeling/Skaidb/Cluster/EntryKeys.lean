import Skaidb.Base.PrefixCode
import Skaidb.Cluster.GlobalProbe

namespace Skaidb.Cluster

open Skaidb.Base Skaidb.Types List

section Bound

-- The buffer is held reversed: the loop looks at the last byte and drops it.
def raiseLast : Bytes → Option Bytes
  | [] => none
  | last :: bound => if last < 0xFF then some ((last + 1) :: bound) else raiseLast bound

def prefixUpperBound (start : Bytes) : Option Bytes := (raiseLast start.reverse).map reverse

private theorem append_le_append_left_iff {q x y : Bytes} : q ++ x ≤ q ++ y ↔ x ≤ y := by
  rw [← not_lt, append_lt_append_left_iff, not_lt]

theorem between_append (q x y k : Bytes) : (q ++ x ≤ k ∧ k < q ++ y) ↔ ∃ t, k = q ++ t ∧ x ≤ t ∧ t < y := by
  constructor
  · rintro ⟨hle, hlt⟩
    induction q generalizing k with
    | nil => exact ⟨k, rfl, hle, hlt⟩
    | cons a q ih =>
      cases k with
      | nil => exact absurd (nil_lt_cons ..) (not_lt.mpr hle)
      | cons c k =>
        simp only [cons_append, ← not_lt, cons_lt_cons_iff, not_or, not_and] at hle hlt
        obtain hlt | ⟨rfl, hlt⟩ := hlt
        · exact absurd hlt hle.1
        · obtain ⟨t, rfl, ht⟩ := ih k (not_lt.mp (hle.2 rfl)) hlt
          exact ⟨t, rfl, ht⟩
  · rintro ⟨t, rfl, hx, hy⟩
    exact ⟨append_le_append_left_iff.mpr hx, (append_lt_append_left_iff ..).mpr hy⟩

private theorem singleton_le_iff {b : UInt8} : [b] ≤ t ↔ ∃ c, ∃ u, t = c :: u ∧ b ≤ c := by
  rw [← not_lt]
  cases t with
  | nil => simp
  | cons c u => simp [cons_lt_cons_iff]

private theorem lt_singleton_iff {b c : UInt8} : c :: u < [b] ↔ c < b := by
  simp [cons_lt_cons_iff]

private theorem lt_succ_iff {b c : UInt8} (hb : b < 0xFF) : c < b + 1 ↔ c ≤ b := by
  have hsmall := UInt8.lt_iff_toNat_lt.mp hb
  simp only [UInt8.lt_iff_toNat_lt, UInt8.le_iff_toNat_le, UInt8.toNat_add, UInt8.reduceToNat] at hsmall ⊢
  omega

private theorem le_of_isPrefix {p k : Bytes} (h : p <+: k) : p ≤ k := not_lt.mp h.le

theorem raiseLast_spec (h : raiseLast r = some e) : (r.reverse ≤ k ∧ k < e.reverse) ↔ r.reverse <+: k := by
  induction r with
  | nil => cases h
  | cons last bound ih =>
    rw [raiseLast] at h
    split at h
    case isTrue hlast =>
      cases h
      rw [reverse_cons, reverse_cons, between_append]
      constructor
      · rintro ⟨t, rfl, hle, hlt⟩
        obtain ⟨c, u, rfl, hc⟩ := singleton_le_iff.mp hle
        obtain rfl := le_antisymm ((lt_succ_iff hlast).mp (lt_singleton_iff.mp hlt)) hc
        simp
      · rintro ⟨u, rfl⟩
        exact ⟨last :: u, by simp, singleton_le_iff.mpr ⟨last, u, rfl, le_rfl⟩,
          lt_singleton_iff.mpr ((lt_succ_iff hlast).mpr le_rfl)⟩
    case isFalse hlast =>
      rw [reverse_cons]
      constructor
      · rintro ⟨hle, hlt⟩
        -- The key starts with what is left of the bound, and the next byte is not less than 0xFF.
        obtain ⟨t, rfl⟩ := (ih h).mp ⟨(le_of_isPrefix (prefix_append ..)).trans hle, hlt⟩
        obtain ⟨c, u, rfl, hc⟩ := singleton_le_iff.mp (append_le_append_left_iff.mp hle)
        have hmax : c ≤ 0xFF := UInt8.le_iff_toNat_le.mpr (Nat.le_of_lt_succ c.toNat_lt)
        obtain rfl := le_antisymm (hmax.trans (not_lt.mp hlast)) hc
        simp
      · intro hpre
        have hleft := (prefix_append bound.reverse [last]).trans hpre
        exact ⟨le_of_isPrefix hpre, ((ih h).mpr hleft).2⟩

theorem raiseLast_isSome (h : ∃ b ∈ r, b < 0xFF) : ∃ e, raiseLast r = some e := by
  induction r with
  | nil => simp at h
  | cons last bound ih =>
    rw [raiseLast]
    split
    · exact ⟨_, rfl⟩
    case isFalse hlast =>
      simp only [mem_cons, exists_eq_or_imp, hlast, false_or] at h
      exact ih h

end Bound

section Keys

variable (toF64 : Decimal → F64)

-- The array encoding without its terminator byte.
def indexPrefixN (values : List Value) : Bytes := ((Value.array values).encodeKey toF64).dropLast

-- `len as u16` in big-endian order: the low sixteen bits of the length.
def lenBytes (len : Nat) : Bytes := [.ofNat (len / 256), .ofNat len]

def entryStart (values : List Value) : Bytes :=
  lenBytes (indexPrefixN toF64 values).length ++ indexPrefixN toF64 values

def gidxEntryKey (values : List Value) (rowKey : Bytes) : Bytes := entryStart toF64 values ++ rowKey

def gidxProbeBounds (values : List Value) : Option (Bytes × Bytes) :=
  (prefixUpperBound (entryStart toF64 values)).map (fun bound => (entryStart toF64 values, bound))

structure KeysExact (tuples : Set (List Value)) : Prop where
  rowKey : ∀ values ∈ tuples, ∀ rowKey,
    gidxEntryRowKey (gidxEntryKey toF64 values rowKey) = some rowKey
  placement : ∀ values ∈ tuples, ∀ rowKey other,
    gidxPlacementPrefix (gidxEntryKey toF64 values rowKey) = gidxPlacementPrefix (gidxEntryKey toF64 values other)
  probe : ∀ values ∈ tuples, ∃ range, gidxProbeBounds toF64 values = some range ∧
    ∀ other ∈ tuples, ∀ rowKey, (range.1 ≤ gidxEntryKey toF64 other rowKey ∧
      gidxEntryKey toF64 other rowKey < range.2) ↔ indexPrefixN toF64 other = indexPrefixN toF64 values

variable {toF64} {values : List Value}

private theorem header_toNat :
    (UInt8.ofNat (len / 256)).toNat * 256 + (UInt8.ofNat len).toNat = len % 65536 := by
  simp only [UInt8.toNat_ofNat']
  omega

theorem entryRowKey_entryKey : gidxEntryRowKey (gidxEntryKey toF64 values rowKey) =
      some ((indexPrefixN toF64 values).drop ((indexPrefixN toF64 values).length % 65536) ++ rowKey) := by
  have hmod := Nat.mod_le (indexPrefixN toF64 values).length 65536
  simp only [gidxEntryKey, entryStart, lenBytes, cons_append, nil_append, gidxEntryRowKey, header_toNat,
    length_cons, length_append]
  rw [if_pos (by omega), Nat.add_comm 2, drop_succ_cons, drop_succ_cons, drop_append_of_le_length hmod]

theorem placementPrefix_entryKey : gidxPlacementPrefix (gidxEntryKey toF64 values rowKey) =
      (entryStart toF64 values).take (2 + (indexPrefixN toF64 values).length % 65536) := by
  have hmod := Nat.mod_le (indexPrefixN toF64 values).length 65536
  simp only [gidxEntryKey, entryStart, lenBytes, cons_append, nil_append, gidxPlacementPrefix, header_toNat,
    length_cons, length_append]
  rw [if_pos (by omega), Nat.add_comm 2]
  simp only [take_succ_cons, take_append_of_le_length hmod]

theorem indexPrefixN_eq : indexPrefixN toF64 values = ValueType.array.tag :: encodeValues toF64 values := by
  rw [indexPrefixN, encodeKey_array, ← cons_append, dropLast_concat, encodeValues]

theorem probeBounds_spec : ∃ range, gidxProbeBounds toF64 values = some range ∧
      ∀ k, (range.1 ≤ k ∧ k < range.2) ↔ entryStart toF64 values <+: k := by
  obtain ⟨e, he⟩ := raiseLast_isSome (r := (entryStart toF64 values).reverse)
    ⟨ValueType.array.tag, by simp [entryStart, indexPrefixN_eq], by decide⟩
  refine ⟨_, by rw [gidxProbeBounds, prefixUpperBound, he]; rfl, ?_⟩
  intro k
  simpa using raiseLast_spec he

private theorem lenBytes_inj (hm : m < 65536) (hn : n < 65536) (h : lenBytes m = lenBytes n) : m = n := by
  simp only [lenBytes, cons.injEq, and_true, ← UInt8.toNat_inj, UInt8.toNat_ofNat'] at h
  omega

theorem start_isPrefix_iff (hfit : (indexPrefixN toF64 values).length < 65536)
    (hother : (indexPrefixN toF64 other).length < 65536) :
    entryStart toF64 values <+: gidxEntryKey toF64 other rowKey ↔
      indexPrefixN toF64 other = indexPrefixN toF64 values := by
  constructor
  · rintro ⟨t, ht⟩
    simp only [gidxEntryKey, entryStart, append_assoc] at ht
    obtain ⟨hlen, hrest⟩ := append_inj ht rfl
    exact (append_inj hrest (lenBytes_inj hfit hother hlen)).1.symm
  · intro h
    rw [gidxEntryKey, entryStart, entryStart, h]
    exact prefix_append _ _

theorem keysExact_iff (toF64 : Decimal → F64) (tuples : Set (List Value)) :
    KeysExact toF64 tuples ↔ ∀ values ∈ tuples, (indexPrefixN toF64 values).length < 65536 := by
  constructor
  · intro h values hv
    have hlen := congrArg (fun k => (k.getD []).length)
      (entryRowKey_entryKey.symm.trans (h.rowKey values hv []))
    simp only [append_nil, Option.getD_some, length_drop, length_nil] at hlen
    omega
  · intro hfit
    refine ⟨?_, ?_, ?_⟩
    · intro values hv rowKey
      rw [entryRowKey_entryKey, Nat.mod_eq_of_lt (hfit values hv), drop_length, nil_append]
    · intro values _ rowKey other
      rw [placementPrefix_entryKey, placementPrefix_entryKey]
    · intro values hv
      obtain ⟨range, hrange, hspec⟩ := @probeBounds_spec toF64 values
      refine ⟨range, hrange, ?_⟩
      intro other ho rowKey
      rw [hspec, start_isPrefix_iff (hfit values hv) (hfit other ho)]

theorem indexPrefixN_nulls : indexPrefixN toF64 (replicate n .null) = 9 :: replicate n 0 := by
  rw [indexPrefixN_eq, encodeValues, flatMap_replicate]
  simp [Value.encodeKey, ValueType.tag]

-- The tuple takes 65537 bytes; the key says one, and the rest of the tuple is read as row key.
theorem rowKey_of_long_tuple : gidxEntryRowKey (gidxEntryKey (fun _ => ⟨0⟩) (replicate 65536 .null) [7]) =
      some (replicate 65536 0 ++ [7]) := by
  rw [entryRowKey_entryKey, indexPrefixN_nulls, length_cons, length_replicate, drop_succ_cons, drop_zero]

end Keys

end Skaidb.Cluster
