import Skaidb.Types.Wire

namespace Skaidb.Proto

open Skaidb.Base Skaidb.Types Reader Wire

section Messages

inductive Consistency where
  | one
  | quorum
  | all
  deriving DecidableEq, Repr

def Consistency.toU8 : Consistency → UInt8
  | .one => 0
  | .quorum => 1
  | .all => 2

def Consistency.fromU8 (b : UInt8) : Option Consistency :=
  if b = 0 then some .one else if b = 1 then some .quorum else if b = 2 then some .all else none

inductive ClientRequest where
  | query (sql : String) (consistency : Consistency)
  | prepare (sql : String)
  | execute (id : UInt32) (params : List Value) (consistency : Consistency)
  | close (id : UInt32)
  | queryStream (sql : String) (consistency : Consistency)
  | executeBatch (id : UInt32) (rows : List (List Value)) (consistency : Consistency)

inductive Response where
  | rows (columns : List String) (rows : List (List Value))
  | mutation (affected : UInt64)
  | ddl
  | error (message : String)
  | prepared (id : UInt32) (params : UInt16)
  | rowsHeader (columns : List String)
  | rowsChunk (rows : List (List Value))
  | rowsEnd

inductive ProtoError where
  | malformed (what : String)
  deriving DecidableEq, Repr

end Messages

section Encoding

-- The count of the parameters is cast to a `u16`.
def putParams (params : List Value) : Bytes := leBytes 2 params.length ++ params.flatMap putValue

def ClientRequest.encode : ClientRequest → Bytes
  | .query sql consistency => 1 :: (consistency.toU8 :: putStr sql)
  | .prepare sql => 2 :: putStr sql
  | .execute id params consistency => 3 :: (consistency.toU8 :: (leBytes 4 id.toNat ++ putParams params))
  | .close id => 4 :: leBytes 4 id.toNat
  | .queryStream sql consistency => 5 :: (consistency.toU8 :: putStr sql)
  | .executeBatch id rows consistency => 7 :: (consistency.toU8 :: (leBytes 4 id.toNat ++ putCounted putParams rows))

def encodeTaggedRequest (id : UInt32) (req : ClientRequest) : Bytes := 6 :: (leBytes 4 id.toNat ++ req.encode)

def encodeColumns (columns : List String) : Bytes := putCounted putStr columns

def encodeRow (row : List Value) : Bytes := putCounted putValue row

def Response.encode : Response → Bytes
  | .rows columns data => 0 :: (encodeColumns columns ++ putCounted encodeRow data)
  | .mutation affected => 1 :: leBytes 8 affected.toNat
  | .ddl => [2]
  | .error message => 3 :: putStr message
  | .prepared id params => 4 :: (leBytes 4 id.toNat ++ leBytes 2 params.toNat)
  | .rowsHeader columns => 5 :: encodeColumns columns
  | .rowsChunk data => 6 :: putCounted encodeRow data
  | .rowsEnd => [7]

def tagResponse (out : Bytes) (id : UInt32) : Bytes := out ++ 8 :: leBytes 4 id.toNat

end Encoding

section Decoding

abbrev Cursor (α : Type) := Reader UInt8 ProtoError α

def unexpectedEnd : ProtoError := .malformed "unexpected end"

namespace Cursor

def u8 : Cursor UInt8 := Wire.u8 unexpectedEnd

def u32 : Cursor UInt32 := Wire.u32 unexpectedEnd

def u64 : Cursor UInt64 := Wire.u64 unexpectedEnd

def u16 : Cursor UInt16 := Wire.u16 unexpectedEnd

def string : Cursor String := Wire.string unexpectedEnd (.malformed "invalid utf-8")

def value : Cursor Value := Wire.value unexpectedEnd (.malformed "bad value encoding")

def counted {α : Type} (x : Cursor α) : Cursor (List α) := Wire.counted unexpectedEnd x

def consistency : Cursor Consistency := do
  match Consistency.fromU8 (← u8) with
  | some c => return c
  | none => Reader.fail (.malformed "bad consistency")

def params : Cursor (List Value) := do many value (← u16).toNat

end Cursor

open Cursor (consistency params)

def ClientRequest.read : Cursor ClientRequest := do
  match (← Cursor.u8).toNat with
  | 1 =>
    let c ← consistency
    return .query (← Cursor.string) c
  | 2 => return .prepare (← Cursor.string)
  | 3 =>
    let c ← consistency
    let id ← Cursor.u32
    return .execute id (← params) c
  | 4 => return .close (← Cursor.u32)
  | 7 =>
    let c ← consistency
    let id ← Cursor.u32
    return .executeBatch id (← Cursor.counted params) c
  | 5 =>
    let c ← consistency
    return .queryStream (← Cursor.string) c
  | _ => Reader.fail (.malformed "unknown opcode")

-- Bytes after the request are not looked at.
def ClientRequest.decode (buf : Bytes) : Except ProtoError ClientRequest := (ClientRequest.read buf).map Prod.fst

def decodeColumns : Cursor (List String) := Cursor.counted Cursor.string

def decodeRows : Cursor (List (List Value)) := Cursor.counted (Cursor.counted Cursor.value)

def Response.read : Cursor Response := do
  match (← Cursor.u8).toNat with
  | 0 =>
    let columns ← decodeColumns
    return .rows columns (← decodeRows)
  | 1 => return .mutation (← Cursor.u64)
  | 2 => return .ddl
  | 3 => return .error (← Cursor.string)
  | 4 =>
    let id ← Cursor.u32
    return .prepared id (← Cursor.u16)
  | 5 => return .rowsHeader (← decodeColumns)
  | 6 => return .rowsChunk (← decodeRows)
  | 7 => return .rowsEnd
  | _ => Reader.fail (.malformed "unknown response tag")

def Response.decode (buf : Bytes) : Except ProtoError Response := (Response.read buf).map Prod.fst

def decodeClientRequest (buf : Bytes) : Except ProtoError (Option UInt32 × ClientRequest) :=
  if buf.head? = some 6 then
    if buf.length < 6 then .error unexpectedEnd
    else if (buf.drop 5).head? = some 6 then .error (.malformed "nested tagged request")
    else (ClientRequest.decode (buf.drop 5)).map (fun req => (some (UInt32.ofNat (leNat ((buf.drop 1).take 4))), req))
  else (ClientRequest.decode buf).map (fun req => (none, req))

def decodeTaggedResponse (buf : Bytes) : Except ProtoError (Option UInt32 × Response) :=
  if buf.head? = some 8 then
    if buf.length < 6 then .error unexpectedEnd
    else (Response.decode (buf.drop 5)).map (fun res => (some (UInt32.ofNat (leNat ((buf.drop 1).take 4))), res))
  else (Response.decode buf).map (fun res => (none, res))

end Decoding

section ChunkEncoder

structure RowsChunkEncoder where
  countPos : Nat
  count : UInt32

namespace RowsChunkEncoder

def begin (out : Bytes) : RowsChunkEncoder × Bytes := (⟨out.length + 1, 0⟩, out ++ [6] ++ [0, 0, 0, 0])

def pushRow (e : RowsChunkEncoder) (out : Bytes) (row : List Value) : RowsChunkEncoder × Bytes :=
  ({ e with count := e.count + 1 }, out ++ encodeRow row)

def finish (e : RowsChunkEncoder) (out : Bytes) : Bytes :=
  out.take e.countPos ++ leBytes 4 e.count.toNat ++ out.drop (e.countPos + 4)

def encodeAll (out : Bytes) (rows : List (List Value)) : Bytes :=
  let (e, out) := rows.foldl (fun s row => s.1.pushRow s.2 row) (begin out)
  e.finish out

end RowsChunkEncoder

end ChunkEncoder

end Skaidb.Proto
