import Skaidb.Types.Document
import Skaidb.Base.LittleEndian

namespace Skaidb.Types

open Skaidb.Base

inductive ValueError where
  | invalidUuid (text : String)
  | outOfRange (what : String)
  | unrepresentableJson (message : String)
  deriving DecidableEq, Repr

def ValueError.display : ValueError → String
  | .invalidUuid text => s!"invalid UUID: {text}"
  | .outOfRange what => s!"value out of range for {what}"
  | .unrepresentableJson message => s!"cannot represent value as JSON: {message}"

-- Reading from a cursor: the bytes still ahead of it are the state.
abbrev Cursor (α : Type) := StateT Bytes (Except ValueError) α

namespace Cursor

def fail {α : Type} (message : String) : Cursor α := fun _ => .error (.unrepresentableJson message)

def take (n : Nat) : Cursor Bytes := fun ahead =>
  if n ≤ ahead.length then .ok (ahead.take n, ahead.drop n)
  else .error (.unrepresentableJson "unexpected end of input")

def u8 : Cursor UInt8 := do return ((← take 1).headD 0)

def u32 : Cursor Nat := do return leNat (← take 4)

def i64 : Cursor Int64 := do return (UInt64.ofNat (leNat (← take 8))).toInt64

def bytes : Cursor Bytes := do take (← u32)

def string : Cursor String := do
  match String.fromUTF8? ⟨(← bytes).toArray⟩ with
  | some s => return s
  | none => fail "invalid utf-8 in string"

def uuid : Cursor Uuid := fun ahead =>
  if h : (ahead.take 16).length = 16 then
    .ok (⟨⟨(ahead.take 16).toArray, by simpa using h⟩⟩, ahead.drop 16)
  else .error (.unrepresentableJson "unexpected end of input")

def fields (value : Cursor Value) : Nat → Document → Cursor Document
  | 0, doc => pure doc
  | n + 1, doc => do
      let name ← string
      let v ← value
      fields value n (doc.insert name v)

def items (value : Cursor Value) : Nat → Cursor (List Value)
  | 0 => pure []
  | n + 1 => do
      let v ← value
      return v :: (← items value n)

end Cursor

-- `decode_value`. Each level of nesting takes bytes, so as many levels as there are
-- bytes are enough.
def decodeValue : Nat → Cursor Value
  | 0 => Cursor.fail "unexpected end of input"
  | depth + 1 => do
      match (← Cursor.u8).toNat with
      | 0 => return .null
      | 1 => return .bool ((← Cursor.u8) ≠ 0)
      | 2 => return .int (← Cursor.i64)
      | 3 => return .float ⟨(← Cursor.i64).toUInt64⟩
      | 4 =>
        let mantissa := BitVec.ofNat 128 (leNat (← Cursor.take 16))
        return .decimal ⟨mantissa.toInt, UInt32.ofNat (← Cursor.u32)⟩
      | 5 => return .string (← Cursor.string)
      | 6 => return .bytes (← Cursor.bytes)
      | 7 => return .uuid (← Cursor.uuid)
      | 8 => return .timestamp (← Cursor.i64)
      | 9 => return .array (← Cursor.items (decodeValue depth) (← Cursor.u32))
      | 10 => return .document (← Cursor.fields (decodeValue depth) (← Cursor.u32) [])
      | _ => Cursor.fail "unknown value tag"

def Value.decode (bytes : Bytes) : Except ValueError Value :=
  match (decodeValue bytes.length).run bytes with
  | .error e => .error e
  | .ok (v, []) => .ok v
  | .ok (_, _ :: _) => .error (.unrepresentableJson "trailing bytes after value")

end Skaidb.Types
