import Skaidb.Base.OrdMap
import Skaidb.Base.Layers
import Skaidb.Storage.Hlc

namespace Skaidb.Storage

open Skaidb.Base

inductive VersionValue where
  | put (bytes : Bytes)
  | delete
  deriving DecidableEq, Repr

abbrev Version := Hlc × VersionValue

-- Versions sort by user key ascending, then newest first.
abbrev VersionKey := Bytes ×ₗ Hlcᵒᵈ

def versionKey (key : Bytes) (hlc : Hlc) : VersionKey := toLex (key, OrderDual.toDual hlc)

structure Memtable where
  map : OrdMap VersionKey VersionValue
  approxBytes : Nat
  deriving DecidableEq

def inRange (start finish : Option Bytes) (key : Bytes) : Bool :=
  start.all (fun s => s ≤ key) && finish.all (fun e => key < e)

def inverted : Option Bytes → Option Bytes → Bool
  | some start, some finish => finish < start
  | _, _ => false

namespace Memtable

def new : Memtable := ⟨OrdMap.empty, 0⟩

variable (m : Memtable)

-- The stamp is a `u64` and a `u32`, padded to 16 bytes in memory.
def insert (key : Bytes) (hlc : Hlc) (value : VersionValue) : Memtable :=
  let valBytes := match value with
    | .put v => v.length
    | .delete => 0
  { map := m.map.insert (versionKey key hlc) value
    approxBytes := m.approxBytes + (key.length + 16 + valBytes + 32) }

def isEmpty : Bool := m.map.entries.isEmpty

def iterVersions : List (Bytes × Version) :=
  m.map.entries.map (fun e => ((ofLex e.1).1, OrderDual.ofDual (ofLex e.1).2, e.2))

def maxHlc : Option Hlc :=
  (m.iterVersions.map (fun e => e.2.1)).max?

-- The first entry at or after `(key, MAX)` is the newest version of `key`, if any.
def getEntryVersioned (key : Bytes) : Option Version :=
  ((m.map.entries.find? (fun e => versionKey key Hlc.MAX ≤ e.1)).filter
    (fun e => (ofLex e.1).1 = key)).map (fun e => (OrderDual.ofDual (ofLex e.1).2, e.2))

def firstPerKey : Option Bytes → List (Bytes × Version) → List (Bytes × Version)
  | _, [] => []
  | current, (key, v) :: rest =>
    if current = some key then firstPerKey current rest
    else (key, v) :: firstPerKey (some key) rest

def iterLatest : List (Bytes × Version) := firstPerKey none m.iterVersions

-- `BTreeMap::range` panics on a start above the end.
def rangeLatest (start finish : Option Bytes) : Option (List (Bytes × Version)) :=
  if inverted start finish then none
  else some (firstPerKey none (m.iterVersions.filter (fun e => inRange start finish e.1)))

end Memtable

end Skaidb.Storage
