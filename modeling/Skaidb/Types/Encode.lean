import Mathlib.Algebra.Group.Int.Defs
import Skaidb.Base.Reader
import Skaidb.Types.Codec

namespace Skaidb.Types

open Skaidb.Base Value Cursor

section Encode

def writeBytes (bytes : Bytes) : Bytes := leBytes 4 bytes.length ++ bytes

mutual

def Value.encode : Value → Bytes
  | .null => [0]
  | .bool b => [1, if b then 1 else 0]
  | .int v => 2 :: leBytes 8 v.toUInt64.toNat
  | .float v => 3 :: leBytes 8 v.bits.toNat
  | .decimal d => 4 :: (leBytes 16 (BitVec.ofInt 128 d.mantissa).toNat ++ leBytes 4 d.scale.toNat)
  | .string s => 5 :: writeBytes (utf8 s)
  | .bytes b => 6 :: writeBytes b
  | .uuid u => 7 :: u.bytes.toList
  | .timestamp v => 8 :: leBytes 8 v.toUInt64.toNat
  | .array items => 9 :: (leBytes 4 items.length ++ writeItems items)
  | .document fields => 10 :: (leBytes 4 fields.length ++ writeFields fields)

def writeItems : List Value → Bytes
  | [] => []
  | v :: items => v.encode ++ writeItems items

def writeFields : List (String × Value) → Bytes
  | [] => []
  | (name, v) :: fields => writeBytes (utf8 name) ++ v.encode ++ writeFields fields

end

def encodeDocument (doc : Document) : Bytes := (Value.document doc).encode

mutual

-- Every length fits into a `u32`, mantissas into an `i128`, and the fields of a
-- document are in the order of their map.
def Value.Storable : Value → Prop
  | .decimal d => -2 ^ 127 ≤ d.mantissa ∧ d.mantissa < 2 ^ 127
  | .string s => (utf8 s).length < 2 ^ 32
  | .bytes b => b.length < 2 ^ 32
  | .array items => items.length < 2 ^ 32 ∧ StorableItems items
  | .document fields =>
    fields.length < 2 ^ 32 ∧ fields.Pairwise (fun f g => utf8 f.1 < utf8 g.1) ∧ StorableFields fields
  | _ => True

def StorableItems : List Value → Prop
  | [] => True
  | v :: items => v.Storable ∧ StorableItems items

def StorableFields : List (String × Value) → Prop
  | [] => True
  | (name, v) :: fields => (utf8 name).length < 2 ^ 32 ∧ v.Storable ∧ StorableFields fields

end

mutual

def Value.decidableStorable : ∀ v : Value, Decidable v.Storable
  | .decimal d => inferInstanceAs (Decidable (-2 ^ 127 ≤ d.mantissa ∧ d.mantissa < 2 ^ 127))
  | .string s => inferInstanceAs (Decidable ((utf8 s).length < 2 ^ 32))
  | .bytes b => inferInstanceAs (Decidable (b.length < 2 ^ 32))
  | .array items =>
    have := decidableStorableItems items
    inferInstanceAs (Decidable (items.length < 2 ^ 32 ∧ StorableItems items))
  | .document fields =>
    have := decidableStorableFields fields
    inferInstanceAs (Decidable (fields.length < 2 ^ 32 ∧
      fields.Pairwise (fun f g => utf8 f.1 < utf8 g.1) ∧ StorableFields fields))
  | .null | .bool _ | .int _ | .float _ | .timestamp _ | .uuid _ => isTrue trivial

def decidableStorableItems : ∀ items : List Value, Decidable (StorableItems items)
  | [] => isTrue trivial
  | v :: items =>
    have := v.decidableStorable
    have := decidableStorableItems items
    inferInstanceAs (Decidable (v.Storable ∧ StorableItems items))

def decidableStorableFields : ∀ fields : List (String × Value), Decidable (StorableFields fields)
  | [] => isTrue trivial
  | (name, v) :: fields =>
    have := v.decidableStorable
    have := decidableStorableFields fields
    inferInstanceAs (Decidable ((utf8 name).length < 2 ^ 32 ∧ v.Storable ∧ StorableFields fields))

end

instance (v : Value) : Decidable v.Storable := v.decidableStorable

end Encode

namespace Cursor

variable {α β : Type}

def Reads (x : Cursor α) (bytes : Bytes) (a : α) : Prop := ∀ rest, x (bytes ++ rest) = .ok (a, rest)

theorem Reads.pure (a : α) : Reads (Pure.pure a) [] a := fun _ => rfl

theorem Reads.bind {x : Cursor α} {f : α → Cursor β} {bytes bytes' : Bytes} {a : α} (hx : Reads x bytes a)
    (hf : Reads (f a) bytes' b) : Reads (x >>= f) (bytes ++ bytes') b :=
  Reader.Reads.bind hx hf

theorem Reads.map {x : Cursor α} {bytes : Bytes} {a : α} (hx : Reads x bytes a) (f : α → β) :
    Reads (do return f (← x)) bytes (f a) :=
  Reader.Reads.map hx f

theorem reads_take (bytes : Bytes) : Reads (take bytes.length) bytes bytes := by
  intro rest
  simp [take]

theorem reads_u8 (b : UInt8) : Reads u8 [b] b := (reads_take [b]).map (fun bs => bs.headD 0)

theorem reads_u32 {n : Nat} (h : n < 2 ^ 32) : Reads u32 (leBytes 4 n) n := by
  have hread := (reads_take (leBytes 4 n)).map leNat
  rw [length_leBytes, leNat_leBytes, Nat.mod_eq_of_lt (by simpa using h)] at hread
  exact hread

theorem reads_i64 (v : Int64) : Reads i64 (leBytes 8 v.toUInt64.toNat) v := by
  have hread := (reads_take (leBytes 8 v.toUInt64.toNat)).map (fun b => (UInt64.ofNat (leNat b)).toInt64)
  rw [length_leBytes, leNat_leBytes, Nat.mod_eq_of_lt (by simpa using v.toUInt64.toNat_lt)] at hread
  rwa [UInt64.ofNat_toNat, Int64.toInt64_toUInt64] at hread

theorem reads_bytes {b : Bytes} (h : b.length < 2 ^ 32) : Reads bytes (writeBytes b) b :=
  (reads_u32 h).bind (reads_take b)

theorem reads_string {s : String} (h : (utf8 s).length < 2 ^ 32) : Reads string (writeBytes (utf8 s)) s := by
  have hread : Reads string (writeBytes (utf8 s) ++ []) s :=
    (reads_bytes h).bind (by rw [fromUTF8?_utf8]; exact Reads.pure s)
  rwa [List.append_nil] at hread

theorem reads_uuid (u : Uuid) : Reads uuid u.bytes.toList u := by
  intro rest
  have htake : (u.bytes.toList ++ rest).take 16 = u.bytes.toList := List.take_left' (by simp)
  have hdrop : (u.bytes.toList ++ rest).drop 16 = rest := List.drop_left' (by simp)
  have hvec : ∀ h, (⟨u.bytes.toList.toArray, h⟩) = u.bytes := by
    intro h
    exact Vector.toArray_inj.mp (by simp [Vector.toList])
  simp [uuid, htake, hdrop, hvec]

theorem reads_items {value : Cursor Value} (values : List Value) (h : ∀ v ∈ values, Reads value v.encode v) :
    Reads (items value values.length) (writeItems values) values := by
  induction values with
  | nil =>
    rw [writeItems]
    exact Reads.pure []
  | cons v values ih =>
    obtain ⟨hv, hvalues⟩ := List.forall_mem_cons.mp h
    rw [writeItems]
    exact hv.bind ((ih hvalues).map (fun vs => v :: vs))

theorem reads_fields {value : Cursor Value} (fields : Document) (doc : Document)
    (hsorted : (doc ++ fields).Pairwise (fun f g => utf8 f.1 < utf8 g.1))
    (hnames : ∀ f ∈ fields, (utf8 f.1).length < 2 ^ 32) (h : ∀ f ∈ fields, Reads value f.2.encode f.2) :
    Reads (Cursor.fields value fields.length doc) (writeFields fields) (doc ++ fields) := by
  induction fields generalizing doc with
  | nil =>
    rw [writeFields, List.append_nil]
    exact Reads.pure doc
  | cons f fields ih =>
    obtain ⟨name, v⟩ := f
    obtain ⟨hv, hvalues⟩ := List.forall_mem_cons.mp h
    obtain ⟨hname, hnames⟩ := List.forall_mem_cons.mp hnames
    have hlast : ∀ f ∈ doc, utf8 f.1 < utf8 name := fun f hf =>
      (List.pairwise_append.mp hsorted).2.2 f hf _ List.mem_cons_self
    have hrest := ih (doc ++ [(name, v)]) (by simpa using hsorted) hnames hvalues
    rw [List.append_assoc, List.singleton_append, ← Document.insert_last hlast] at hrest
    rw [writeFields, List.append_assoc]
    exact (reads_string hname).bind (hv.bind hrest)

end Cursor

section RoundTrip

theorem storableItems_iff (values : List Value) : StorableItems values ↔ ∀ v ∈ values, v.Storable := by
  induction values with
  | nil => simp [StorableItems]
  | cons v values ih => simp [StorableItems, ih]

theorem storableFields_iff (fields : List (String × Value)) :
    StorableFields fields ↔ ∀ f ∈ fields, (utf8 f.1).length < 2 ^ 32 ∧ f.2.Storable := by
  induction fields with
  | nil => simp [StorableFields]
  | cons f fields ih => simp [StorableFields, ih, and_assoc]

theorem length_encode_le_writeItems {values : List Value} {v : Value} (h : v ∈ values) :
    v.encode.length ≤ (writeItems values).length := by
  induction values with
  | nil => simp at h
  | cons w values ih =>
    rw [writeItems, List.length_append]
    rcases List.mem_cons.mp h with rfl | h
    · omega
    · have := ih h
      omega

theorem length_encode_le_writeFields {fields : List (String × Value)} {f : String × Value} (h : f ∈ fields) :
    f.2.encode.length ≤ (writeFields fields).length := by
  induction fields with
  | nil => simp at h
  | cons g fields ih =>
    rw [writeFields, List.length_append, List.length_append]
    rcases List.mem_cons.mp h with rfl | h
    · omega
    · have := ih h
      omega

theorem Value.length_encode_pos (v : Value) : 0 < v.encode.length := by
  cases v <;> simp [encode]

private theorem reads_tagged {β : Type} {tag : UInt8} {f : UInt8 → Cursor β} {bytes : Bytes} {b : β}
    (h : Reads (f tag) bytes b) : Reads (u8 >>= f) (tag :: bytes) b :=
  (reads_u8 tag).bind h

private theorem reads_decimal {d : Decimal} (hlow : -2 ^ 127 ≤ d.mantissa) (hhigh : d.mantissa < 2 ^ 127) :
    Reads (do
        let mantissa := BitVec.ofNat 128 (leNat (← take 16))
        return decimal ⟨mantissa.toInt, UInt32.ofNat (← u32)⟩)
      (leBytes 16 (BitVec.ofInt 128 d.mantissa).toNat ++ leBytes 4 d.scale.toNat) (.decimal d) := by
  have hmantissa := reads_take (leBytes 16 (BitVec.ofInt 128 d.mantissa).toNat)
  have hscale := reads_u32 d.scale.toNat_lt
  rw [length_leBytes] at hmantissa
  have hle : leNat (leBytes 16 (BitVec.ofInt 128 d.mantissa).toNat) = (BitVec.ofInt 128 d.mantissa).toNat := by
    rw [leNat_leBytes, Nat.mod_eq_of_lt (by simpa using (BitVec.ofInt 128 d.mantissa).isLt)]
  have hint : (BitVec.ofInt 128 d.mantissa).toInt = d.mantissa := by
    rw [BitVec.toInt_ofInt, Int.bmod_eq_of_le (by simpa using hlow) (by simpa using hhigh)]
  refine hmantissa.bind ?_
  have hread := hscale.map (fun n => decimal ⟨d.mantissa, UInt32.ofNat n⟩)
  rw [UInt32.ofNat_toNat] at hread
  simpa only [hle, BitVec.ofNat_toNat, BitVec.setWidth_eq, hint] using hread

-- `decode_value` after `encode_into`, by induction on the nesting of the value.
theorem reads_decodeValue {v : Value} :
    ∀ depth, v.Storable → v.encode.length ≤ depth → Cursor.Reads (decodeValue depth) v.encode v := by
  intro depth hstore hdepth
  obtain _ | depth := depth
  · exact absurd hdepth (Nat.not_le.mpr v.length_encode_pos)
  induction v using induction generalizing depth with
  | null =>
    rw [encode, decodeValue]
    exact reads_tagged (Reads.pure _)
  | bool b =>
    rw [encode, decodeValue]
    have hread := (reads_u8 (if b then 1 else 0)).map (fun x => bool (x ≠ 0))
    refine reads_tagged ?_
    cases b <;> exact hread
  | int v =>
    rw [encode, decodeValue]
    exact reads_tagged ((reads_i64 v).map int)
  | float v =>
    rw [encode, decodeValue]
    exact reads_tagged ((reads_i64 v.bits.toInt64).map (fun i => float ⟨i.toUInt64⟩))
  | decimal d =>
    rw [encode, decodeValue]
    exact reads_tagged (reads_decimal hstore.1 hstore.2)
  | string s =>
    rw [encode, decodeValue]
    exact reads_tagged ((reads_string hstore).map string)
  | bytes b =>
    rw [encode, decodeValue]
    exact reads_tagged ((Cursor.reads_bytes hstore).map Value.bytes)
  | uuid u =>
    rw [encode, decodeValue]
    exact reads_tagged ((reads_uuid u).map uuid)
  | timestamp v =>
    rw [encode, decodeValue]
    exact reads_tagged ((reads_i64 v).map timestamp)
  | array items ih =>
    obtain ⟨hcount, hitems⟩ := hstore
    rw [encode] at hdepth ⊢
    rw [decodeValue]
    refine reads_tagged ((reads_u32 hcount).bind ((reads_items items ?_).map array))
    intro v hv
    have hle := length_encode_le_writeItems hv
    have hpos := v.length_encode_pos
    obtain _ | depth := depth
    · simp at hdepth
    exact ih v hv ((storableItems_iff items).mp hitems v hv) depth (by simp at hdepth; omega)
  | document fields ih =>
    obtain ⟨hcount, hsorted, hfields⟩ := hstore
    have hstore := (storableFields_iff fields).mp hfields
    rw [encode] at hdepth ⊢
    rw [decodeValue]
    refine reads_tagged ((reads_u32 hcount).bind
      ((reads_fields fields [] hsorted (fun f hf => (hstore f hf).1) ?_).map document))
    intro f hf
    have hle := length_encode_le_writeFields hf
    have hpos := f.2.length_encode_pos
    obtain _ | depth := depth
    · simp at hdepth
    exact ih f hf (hstore f hf).2 depth (by simp at hdepth; omega)

theorem Value.decode_encode {v : Value} (h : v.Storable) : decode v.encode = .ok v := by
  have hread := reads_decodeValue v.encode.length h le_rfl []
  rw [List.append_nil] at hread
  rw [decode, StateT.run, hread]

end RoundTrip

end Skaidb.Types
