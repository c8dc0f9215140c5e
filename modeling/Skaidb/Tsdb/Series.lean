import Skaidb.Types.Value

namespace Skaidb.Tsdb

open Skaidb.Types

structure Label where
  key : String
  value : String
  deriving DecidableEq, Repr

-- Label pairs compare by key, then by value, each by its bytes.
instance : LinearOrder Label :=
  LinearOrder.lift' (fun l => toLex (utf8 l.key, utf8 l.value)) (by
    intro a b h
    obtain ⟨hkey, hvalue⟩ := Prod.ext_iff.mp (toLex.injective h)
    cases a
    cases b
    simp only [Label.mk.injEq]
    exact ⟨utf8_inj hkey, utf8_inj hvalue⟩)

abbrev Labels := List Label

structure Sample where
  ts : Int64
  value : F64
  deriving DecidableEq, Repr

section Time

def divEuclid (a b : Int64) : Int64 := Int64.ofInt (a.toInt / b.toInt)

-- The start of the window of width `span` that holds `ts`; the product wraps.
def windowOf (span ts : Int64) : Int64 := divEuclid ts span * span

def saturatingSub (a b : Int64) : Int64 :=
  Int64.ofInt (max Int64.minValue.toInt (min Int64.maxValue.toInt (a.toInt - b.toInt)))

end Time

example : windowOf 10 (-3) = -10 ∧ saturatingSub Int64.minValue 5 = Int64.minValue := by decide

end Skaidb.Tsdb
