import Skaidb.Base.Words
import Mathlib.Algebra.Group.Nat.Defs
import Mathlib.Tactic.Common

namespace Skaidb.Types

structure Uuid where
  bytes : Vector UInt8 16
  deriving DecidableEq

-- A double is its bit pattern.
structure F64 where
  bits : UInt64
  deriving DecidableEq, Repr

structure Decimal where
  mantissa : Int
  scale : UInt32
  deriving DecidableEq, Repr

-- A document lists its fields in the order of the sorted map.
inductive Value where
  | null
  | bool (b : Bool)
  | int (v : Int64)
  | float (v : F64)
  | decimal (d : Decimal)
  | string (s : String)
  | bytes (b : Bytes)
  | uuid (u : Uuid)
  | timestamp (v : Int64)
  | array (items : List Value)
  | document (fields : List (String × Value))

inductive ValueType where
  | null
  | bool
  | int
  | float
  | decimal
  | string
  | bytes
  | uuid
  | timestamp
  | array
  | document
  deriving DecidableEq, Repr

namespace Value

def typeOf : Value → ValueType
  | .null => .null
  | .bool _ => .bool
  | .int _ => .int
  | .float _ => .float
  | .decimal _ => .decimal
  | .string _ => .string
  | .bytes _ => .bytes
  | .uuid _ => .uuid
  | .timestamp _ => .timestamp
  | .array _ => .array
  | .document _ => .document

def isNull : Value → Bool
  | .null => true
  | _ => false

theorem induction {motive : Value → Prop}
    (null : motive .null) (bool : ∀ b, motive (.bool b)) (int : ∀ v, motive (.int v))
    (float : ∀ v, motive (.float v)) (decimal : ∀ d, motive (.decimal d))
    (string : ∀ s, motive (.string s)) (bytes : ∀ b, motive (.bytes b))
    (uuid : ∀ u, motive (.uuid u)) (timestamp : ∀ v, motive (.timestamp v))
    (array : ∀ items, (∀ v ∈ items, motive v) → motive (.array items))
    (document : ∀ fields, (∀ f ∈ fields, motive f.2) → motive (.document fields)) (v : Value) : motive v :=
  @Value.rec motive (fun items => ∀ v ∈ items, motive v) (fun fields => ∀ f ∈ fields, motive f.2)
    (fun f => motive f.2) null bool int float decimal string bytes uuid timestamp array document
    (by simp) (fun v items hv hi => List.forall_mem_cons.mpr ⟨hv, hi⟩)
    (by simp) (fun f fields hf hi => List.forall_mem_cons.mpr ⟨hf, hi⟩) (fun _ _ hv => hv) v

end Value

def utf8 (s : String) : Bytes := s.toByteArray.data.toList

theorem fromUTF8?_utf8 : String.fromUTF8? ⟨(utf8 s).toArray⟩ = some s := by
  have hbytes : (⟨(utf8 s).toArray⟩) = s.toByteArray := by simp [utf8]
  rw [hbytes, String.fromUTF8?, dif_pos s.isValidUTF8]
  rfl

theorem utf8_inj (h : utf8 s = utf8 t) : s = t :=
  String.toByteArray_inj.mp (ByteArray.ext (Array.toList_inj.mp h))

def beBytes (u : UInt64) : Bytes :=
  [(u >>> 56).toUInt8, (u >>> 48).toUInt8, (u >>> 40).toUInt8, (u >>> 32).toUInt8,
    (u >>> 24).toUInt8, (u >>> 16).toUInt8, (u >>> 8).toUInt8, u.toUInt8]

-- Flip the sign bit so two's-complement order becomes unsigned byte order.
def encodeI64 (v : Int64) : Bytes := beBytes (v.toUInt64 ^^^ 0x8000000000000000)

def encodeF64 (v : F64) : Bytes :=
  if v.bits &&& 0x8000000000000000 = 0 then beBytes (v.bits ||| 0x8000000000000000)
  else beBytes (~~~v.bits)

def escapeByte (b : UInt8) : Bytes := if b = 0x00 then [0x00, 0xFF] else [b]

-- Zero bytes are escaped; two of them end the string.
def encodeBytes (b : Bytes) : Bytes := b.flatMap escapeByte ++ [0x00, 0x00]

def ValueType.tag : ValueType → UInt8
  | .null => 0x00
  | .bool => 0x01
  | .int => 0x02
  | .float => 0x03
  | .decimal => 0x04
  | .string => 0x05
  | .bytes => 0x06
  | .uuid => 0x07
  | .timestamp => 0x08
  | .array => 0x09
  | .document => 0x0a

def tagEnd : UInt8 := 0x00

section Encode

-- `Decimal::to_f64`, whose floating-point power and division are left open.
variable (toF64 : Decimal → F64)

mutual

def Value.encodeKey : Value → Bytes
  | .null => [ValueType.null.tag]
  | .bool b => [ValueType.bool.tag, if b then 1 else 0]
  | .int v => ValueType.int.tag :: encodeI64 v
  | .timestamp v => ValueType.timestamp.tag :: encodeI64 v
  | .float v => ValueType.float.tag :: encodeF64 v
  | .decimal d => ValueType.decimal.tag :: encodeF64 (toF64 d)
  | .string s => ValueType.string.tag :: encodeBytes (utf8 s)
  | .bytes b => ValueType.bytes.tag :: encodeBytes b
  | .uuid u => ValueType.uuid.tag :: u.bytes.toList
  | .array items => ValueType.array.tag :: (encodeItems items ++ [tagEnd])
  | .document fields => ValueType.document.tag :: (encodeFields fields ++ [tagEnd])

def encodeItems : List Value → Bytes
  | [] => []
  | v :: items => v.encodeKey ++ encodeItems items

def encodeFields : List (String × Value) → Bytes
  | [] => []
  | (name, v) :: fields => encodeBytes (utf8 name) ++ v.encodeKey ++ encodeFields fields

end

theorem encodeItems_eq_flatMap (items : List Value) :
    encodeItems toF64 items = items.flatMap (fun v => v.encodeKey toF64) := by
  induction items with
  | nil => rw [encodeItems, List.flatMap_nil]
  | cons v items ih => rw [encodeItems, ih, List.flatMap_cons]

def encodeField (field : String × Value) : Bytes :=
  encodeBytes (utf8 field.1) ++ field.2.encodeKey toF64

theorem encodeFields_eq_flatMap (fields : List (String × Value)) :
    encodeFields toF64 fields = fields.flatMap (encodeField toF64) := by
  induction fields with
  | nil => rw [encodeFields, List.flatMap_nil]
  | cons field fields ih =>
    rw [encodeFields, ih, List.flatMap_cons]
    rfl

theorem encodeKey_array {items : List Value} : (Value.array items).encodeKey toF64 =
      ValueType.array.tag :: (items.flatMap (fun v => v.encodeKey toF64) ++ [tagEnd]) := by
  rw [Value.encodeKey, encodeItems_eq_flatMap]

theorem encodeKey_document {fields : List (String × Value)} : (Value.document fields).encodeKey toF64 =
      ValueType.document.tag :: (fields.flatMap (encodeField toF64) ++ [tagEnd]) := by
  rw [Value.encodeKey, encodeFields_eq_flatMap]

def encodeValues (values : List Value) : Bytes := values.flatMap (fun v => v.encodeKey toF64)

end Encode

end Skaidb.Types
