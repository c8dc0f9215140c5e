import Skaidb.Types.Codec

namespace Skaidb.Exec

open Skaidb.Types

inductive EngineError where
  | parse (message : String)
  | storage (message : String)
  | io (message : String)
  | tableNotFound (name : String)
  | tableExists (name : String)
  | indexNotFound (name : String)
  | indexExists (name : String)
  | databaseNotFound (name : String)
  | databaseExists (name : String)
  | constraint (message : String)
  | type (message : String)
  | unsupported (message : String)
  | resourceLimit (message : String)
  | cluster (message : String)
  | timeseries (message : String)
  deriving DecidableEq, Repr

def decodeDocument (bytes : Bytes) : Option Document :=
  match Value.decode bytes with
  | .ok (.document doc) => some doc
  | _ => none

section IndexPaths

def isMulti (path : String) : Bool := ['[', ']'].isSuffixOf path.toList

def stripMarkers : List Char → List Char
  | ']' :: '[' :: rest => stripMarkers rest
  | cs => cs

def keyName (path : String) : String := String.ofList (stripMarkers path.toList.reverse).reverse

def indexKeyNames (paths : List String) : List String := paths.map keyName

def multiPos (paths : List String) : Option Nat := paths.findIdx? isMulti

def indexValues (doc : Document) (paths : List String) : List Value :=
  paths.map (fun path => (doc.getPath path).getD .null)

-- One tuple for a plain index; for a multikey index one per element of the array,
-- a scalar as itself.
def indexValueTuples (doc : Document) (paths : List String) : List (List Value) :=
  match multiPos paths with
  | none => [indexValues doc paths]
  | some m =>
    let base := indexValues doc (indexKeyNames paths)
    match base[m]? with
    | some (.array items) => items.map (fun el => base.set m el)
    | _ => [base]

variable (toF64 : Decimal → F64)

def indexEntryKey (values : List Value) (rowKey : Bytes) : Bytes :=
  (Value.array (values ++ [.bytes rowKey])).encodeKey toF64

def entryKeys (paths : List String) (doc : Document) (rowKey : Bytes) : List Bytes :=
  (indexValueTuples doc paths).map (fun values => indexEntryKey toF64 values rowKey)

end IndexPaths

end Skaidb.Exec
