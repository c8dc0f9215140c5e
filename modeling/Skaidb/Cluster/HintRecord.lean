import Skaidb.Base.Decoder
import Skaidb.Cluster.Coordinator
import Skaidb.Storage.WalFormat.Records

namespace Skaidb.Cluster

open Skaidb.Base Skaidb.Storage Skaidb.Types List Decoder

structure Hint where
  table : String
  key : Bytes
  op : VersionValue
  hlc : Hlc
  deriving DecidableEq

def encodeOp : VersionValue → Bytes
  | .put v => 1 :: (leBytes 4 v.length ++ v)
  | .delete => [0]

-- The lengths are cut to 32 bits.
def encodeHintRecord (h : Hint) : Bytes :=
  leBytes 4 (utf8 h.table).length ++ (utf8 h.table ++ (leBytes 4 h.key.length ++
    (h.key ++ (encodeOp h.op ++ h.hlc.toBytes))))

def rdU32 : Decoder UInt8 Nat := (Decoder.fixed 4).bind (fun b => .pure (leNat b))

-- Any tag but 1 is a delete.
def decodeOp (tag : Bytes) : Decoder UInt8 VersionValue :=
  if tag = [1] then rdU32.bind (fun vl => (Decoder.fixed vl).bind (fun v => .pure (.put v))) else .pure .delete

section

variable (lossy : Bytes → String)

def tableName (bytes : Bytes) : String := (String.fromUTF8? ⟨bytes.toArray⟩).getD (lossy bytes)

def decodeHintRecord : Decoder UInt8 Hint :=
  rdU32.bind (fun tl => (Decoder.fixed tl).bind (fun table =>
    rdU32.bind (fun kl => (Decoder.fixed kl).bind (fun key =>
      (Decoder.fixed 1).bind (fun tag => (decodeOp tag).bind (fun op =>
        (Decoder.fixed 12).bind (fun hlc =>
          .pure ⟨tableName lossy table, key, op, Hlc.fromBytes hlc⟩)))))))

end

section Bounds

open Decoder

theorem bounded_rdU32 : Bounded rdU32 := bounded_fixed.bind (fun _ => bounded_pure)

theorem bounded_decodeOp : Bounded (decodeOp tag) := by
  unfold decodeOp
  split_ifs
  · exact bounded_rdU32.bind (fun _ => bounded_fixed.bind (fun _ => bounded_pure))
  · exact bounded_pure

private theorem bounded_afterTable (f : Nat → Bytes → Bytes → VersionValue → Bytes → Hint) :
    Bounded (rdU32.bind (fun kl => (fixed kl).bind (fun key => (fixed 1).bind (fun tag =>
      (decodeOp tag).bind (fun op => (fixed 12).bind (fun hlc => .pure (f kl key tag op hlc))))))) :=
  bounded_rdU32.bind (fun _ => bounded_fixed.bind (fun _ => bounded_fixed.bind (fun _ =>
    bounded_decodeOp.bind (fun _ => bounded_fixed.bind (fun _ => bounded_pure)))))

variable (lossy : Bytes → String)

theorem bounded_decodeHintRecord : Bounded (decodeHintRecord lossy) :=
  bounded_rdU32.bind (fun _ => bounded_fixed.bind (fun _ => bounded_afterTable (fun _ _ _ _ _ => _)))

theorem takes_decodeHintRecord : Takes (decodeHintRecord lossy) 1 := by
  have hfour : Takes rdU32 4 := takes_fixed.bind (fun _ => bounded_pure)
  have hone : Takes rdU32 1 := by
    intro xs a rest h
    have := hfour xs a rest h
    omega
  exact hone.bind (fun _ => bounded_fixed.bind (fun _ => bounded_afterTable (fun _ _ _ _ _ => _)))

end Bounds

section RoundTrip

def Hint.Fits (h : Hint) : Prop :=
  (utf8 h.table).length < 2 ^ 32 ∧ h.key.length < 2 ^ 32 ∧
    match h.op with
    | .put v => v.length < 2 ^ 32
    | .delete => True

instance : (h : Hint) → Decidable h.Fits
  | ⟨_, _, .put _, _⟩ => inferInstanceAs (Decidable (_ ∧ _ ∧ _ < _))
  | ⟨_, _, .delete, _⟩ => inferInstanceAs (Decidable (_ ∧ _ ∧ True))

private theorem rdU32_leBytes (h : n < 2 ^ 32) : rdU32 (leBytes 4 n ++ rest) = some (n, rest) := by
  have hfixed := fixed_append (leBytes 4 n) rest
  rw [length_leBytes] at hfixed
  rw [rdU32, bind_eq hfixed]
  show some (leNat (leBytes 4 n), rest) = _
  rw [leNat_leBytes, Nat.mod_eq_of_lt (by omega)]

private theorem decodeOp_encodeOp (h : match op with | .put v => v.length < 2 ^ 32 | .delete => True) :
    ∃ tag body, encodeOp op = tag :: body ∧ decodeOp [tag] (body ++ rest) = some (op, rest) := by
  cases op with
  | put v =>
    refine ⟨1, leBytes 4 v.length ++ v, rfl, ?_⟩
    rw [decodeOp, if_pos rfl, append_assoc, bind_eq (rdU32_leBytes h),
      bind_eq (fixed_append v rest)]
    rfl
  | delete => exact ⟨0, [], rfl, rfl⟩

theorem decodeHintRecord_encode (lossy : Bytes → String) {h : Hint} (hfits : h.Fits) (rest : Bytes) :
    decodeHintRecord lossy (encodeHintRecord h ++ rest) = some (h, rest) := by
  obtain ⟨htable, hkey, hop⟩ := hfits
  obtain ⟨tag, body, hbody, hdecode⟩ := decodeOp_encodeOp hop
  have hname : tableName lossy (utf8 h.table) = h.table := by
    rw [tableName, fromUTF8?_utf8]
    rfl
  have htag : fixed 1 (tag :: (body ++ (h.hlc.toBytes ++ rest))) =
      some ([tag], body ++ (h.hlc.toBytes ++ rest)) := fixed_append [tag] _
  have hhlc := fixed_append h.hlc.toBytes rest
  rw [Hlc.length_toBytes] at hhlc
  simp only [encodeHintRecord, hbody, append_assoc, cons_append]
  rw [decodeHintRecord, bind_eq (rdU32_leBytes htable), bind_eq (fixed_append _ _),
    bind_eq (rdU32_leBytes hkey), bind_eq (fixed_append _ _),
    bind_eq htag, bind_eq hdecode, bind_eq hhlc]
  show some (_, rest) = _
  rw [hname, Hlc.fromBytes_toBytes]

end RoundTrip

section Records

variable (lossy : Bytes → String)

def recordsIn (data : Bytes) : List Hint :=
  (decodeHintRecord lossy).values (bounded_decodeHintRecord lossy) (takes_decodeHintRecord lossy) data

def WholeLog (data : Bytes) : Prop :=
  (decodeHintRecord lossy).Filled (bounded_decodeHintRecord lossy) (takes_decodeHintRecord lossy) data
deriving Decidable

variable {lossy}

@[simp] theorem recordsIn_nil : recordsIn lossy [] = [] := values_of_none rfl

theorem recordsIn_encode {h : Hint} (hfits : h.Fits) : recordsIn lossy (encodeHintRecord h) = [h] := by
  have hdecode := decodeHintRecord_encode lossy hfits []
  rw [append_nil] at hdecode
  exact (values_of_some hdecode).trans (congrArg _ recordsIn_nil)

theorem recordsIn_torn {h : Hint} (hfits : h.Fits) (hk : k < (encodeHintRecord h).length) :
    recordsIn lossy ((encodeHintRecord h).take k) = [] := by
  have hdecode := decodeHintRecord_encode lossy hfits []
  rw [append_nil] at hdecode
  exact values_of_none ((bounded_decodeHintRecord lossy).none_of_cut hdecode hk)

end Records

end Skaidb.Cluster
