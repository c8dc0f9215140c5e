import Mathlib.Algebra.GroupWithZero.Nat
import Skaidb.Base.OrdMap
import Skaidb.Base.Layers

namespace Skaidb.Storage

open Skaidb.Base

variable {κ σ ν : Type*} [LinearOrder κ] [LinearOrder σ]

-- One source of the merge: the buffered head and the items not read yet.
structure Cursor (κ σ ν : Type*) where
  head : Option (κ × σ × ν)
  rest : List (κ × σ × ν)

namespace KWayMerge

def refill (c : Cursor κ σ ν) : Cursor κ σ ν :=
  match c.head, c.rest with
  | none, item :: rest => ⟨some item, rest⟩
  | _, _ => c

-- Smallest key; among equal keys the highest stamp, the earlier source on a tie.
def challenge (win head : Option (κ × σ × ν)) : Option (κ × σ × ν) :=
  match win, head with
  | win, none => win
  | none, some item => some item
  | some w, some item =>
    if item.1 < w.1 ∨ (item.1 = w.1 ∧ w.2.1 < item.2.1) then some item else some w

def winner (heads : List (Option (κ × σ × ν))) : Option (κ × σ × ν) :=
  heads.foldl challenge none

def discard (key : κ) (c : Cursor κ σ ν) : Cursor κ σ ν :=
  if c.head.any (fun item => item.1 = key) then { c with head := none } else c

def next (cursors : List (Cursor κ σ ν)) :
    Option ((κ × σ × ν) × List (Cursor κ σ ν)) :=
  (winner ((cursors.map refill).map Cursor.head)).map
    (fun item => (item, (cursors.map refill).map (discard item.1)))

def collect : Nat → List (Cursor κ σ ν) → List (κ × σ × ν)
  | 0, _ => []
  | fuel + 1, cursors =>
    match next cursors with
    | none => []
    | some (item, rest) => item :: collect fuel rest

def new (sources : List (List (κ × σ × ν))) : List (Cursor κ σ ν) :=
  sources.map (fun items => ⟨none, items⟩)

-- Each call of `next` consumes an item of some source.
def run (sources : List (List (κ × σ × ν))) : List (κ × σ × ν) :=
  collect (sources.map List.length).sum (new sources)

end KWayMerge

end Skaidb.Storage
