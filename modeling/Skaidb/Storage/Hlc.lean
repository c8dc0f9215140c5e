import Skaidb.Types.Value
import Skaidb.Base.LittleEndian
import Skaidb.Base.Runs

namespace Skaidb.Storage

open Skaidb.Base Skaidb.Types

structure Hlc where
  physical : UInt64
  logical : UInt32
  deriving DecidableEq, Repr

namespace Hlc

instance : LinearOrder Hlc :=
  LinearOrder.lift' (fun h : Hlc => toLex (h.physical, h.logical)) (by
    rintro ⟨p, l⟩ ⟨p', l'⟩ h
    simpa using h)

def MIN : Hlc := ⟨0, 0⟩

def MAX : Hlc := ⟨UInt64.ofNat (2 ^ 64 - 1), UInt32.ofNat (2 ^ 32 - 1)⟩

def toBytes (h : Hlc) : Bytes := beBytes h.physical ++ (beBytes h.logical.toUInt64).drop 4

def fromBytes (bytes : Bytes) : Hlc :=
  ⟨UInt64.ofNat (leNat (bytes.take 8).reverse), UInt32.ofNat (leNat (bytes.drop 8).reverse)⟩

theorem lt_iff {a b : Hlc} :
    a < b ↔ a.physical < b.physical ∨ (a.physical = b.physical ∧ a.logical < b.logical) :=
  Prod.Lex.toLex_lt_toLex

theorem le_MAX (a : Hlc) : a ≤ MAX := by
  refine Prod.Lex.toLex_le_toLex.mpr ?_
  simp only [MAX, UInt64.lt_iff_toNat_lt, UInt32.le_iff_toNat_le, ← UInt64.toNat_inj]
  have hp := a.physical.toNat_lt
  have hl := a.logical.toNat_lt
  have hpm : (UInt64.ofNat (2 ^ 64 - 1)).toNat = 2 ^ 64 - 1 := by decide
  have hlm : (UInt32.ofNat (2 ^ 32 - 1)).toNat = 2 ^ 32 - 1 := by decide
  omega

end Hlc

-- Advance `last` toward wall-clock `wall`. The logical counter is a `u32` and
-- wraps, as release builds do.
def advance (last : Hlc) (wall : UInt64) : Hlc :=
  if last.physical < wall then ⟨wall, 0⟩ else ⟨last.physical, last.logical + 1⟩

structure HlcClock where
  last : Hlc

variable (clock : HlcClock)

namespace HlcClock

def new : HlcClock := ⟨Hlc.MIN⟩

def now (wall : UInt64) : HlcClock := ⟨advance clock.last wall⟩

def observe (remote : Hlc) (wall : UInt64) : HlcClock :=
  ⟨advance (max clock.last remote) wall⟩

end HlcClock

-- The counter has room: the physical part moves or the logical part does not wrap.
def Room (last : Hlc) (wall : UInt64) : Prop :=
  last.physical < wall ∨ last.logical.toNat + 1 < 2 ^ 32

instance (last : Hlc) (wall : UInt64) : Decidable (Room last wall) := by
  unfold Room
  infer_instance

theorem lt_advance {last : Hlc} (h : Room last wall) : last < advance last wall := by
  unfold advance
  split_ifs with hw
  · exact Hlc.lt_iff.mpr (.inl hw)
  · rcases h with h | h
    · exact absurd h hw
    · refine Hlc.lt_iff.mpr (.inr ⟨rfl, ?_⟩)
      rw [UInt32.lt_iff_toNat_lt, UInt32.toNat_add, Nat.mod_eq_of_lt (by simpa using h)]
      simp

inductive ClockCall where
  | now (wall : UInt64)
  | observe (remote : Hlc) (wall : UInt64)
  deriving DecidableEq

def ClockCall.wall : ClockCall → UInt64
  | .now wall | .observe _ wall => wall

def ClockCall.remote : ClockCall → List Hlc
  | .now _ => []
  | .observe remote _ => [remote]

def HlcClock.base : ClockCall → Hlc
  | .now _ => clock.last
  | .observe remote _ => max clock.last remote

def HlcClock.call : ClockCall → HlcClock
  | .now wall => clock.now wall
  | .observe remote wall => clock.observe remote wall

structure Ticking where
  clock : HlcClock
  seen : List Hlc

namespace Ticking

def start : Ticking := ⟨.new, []⟩

variable (t : Ticking)

def call (c : ClockCall) : Ticking :=
  ⟨t.clock.call c, (t.clock.call c).last :: (c.remote ++ t.seen)⟩

-- The stamp is above all before it, and its counter is the next one or starts again at a later time.
def Rises (c : ClockCall) : Prop :=
  (∀ stamp ∈ c.remote ++ t.seen, stamp < (t.clock.call c).last) ∧
    ((t.clock.call c).last.logical.toNat = (t.clock.base c).logical.toNat + 1 ∨
      (t.clock.call c).last = ⟨c.wall, 0⟩ ∧ (t.clock.base c).physical < c.wall)
deriving Decidable

def HasRoom (c : ClockCall) : Prop := Room (t.clock.base c) c.wall
deriving Decidable

def Topped : Prop := ∀ stamp ∈ t.seen, stamp ≤ t.clock.last

variable {t : Ticking}

theorem last_call {c : ClockCall} : (clock.call c).last = advance (clock.base c) c.wall := by
  cases c with
  | now wall | observe remote wall => rfl

theorem Topped.le_base (h : t.Topped) {c : ClockCall} : ∀ stamp ∈ c.remote ++ t.seen, stamp ≤ t.clock.base c := by
  intro stamp hmem
  cases c with
  | now wall => exact h stamp hmem
  | observe remote wall =>
    obtain rfl | hmem := List.mem_cons.mp hmem
    · exact le_max_right _ _
    · exact (h stamp hmem).trans (le_max_left _ _)

theorem rises_of_hasRoom (h : t.Topped) (hroom : t.HasRoom c) : t.Rises c := by
  unfold Rises
  rw [last_call]
  refine ⟨fun stamp hmem => (h.le_base stamp hmem).trans_lt (lt_advance hroom), ?_⟩
  unfold advance
  split_ifs with hwall
  · exact .inr ⟨rfl, hwall⟩
  · obtain hlater | hfits := hroom
    · exact absurd hlater hwall
    · refine .inl ?_
      rw [UInt32.toNat_add, Nat.mod_eq_of_lt (by simpa using hfits)]
      rfl

theorem hasRoom_of_rises (h : t.Rises c) : t.HasRoom c := by
  obtain hnext | ⟨-, hwall⟩ := h.2
  · have hlt := (t.clock.call c).last.logical.toNat_lt
    exact .inr (by omega)
  · exact .inl hwall

theorem Topped.call (h : t.Topped) (hroom : t.HasRoom c) : (t.call c).Topped := by
  intro stamp hmem
  obtain rfl | hmem := List.mem_cons.mp hmem
  · exact le_refl _
  · exact ((rises_of_hasRoom h hroom).1 stamp hmem).le

theorem stamps_rise_iff (calls : List ClockCall) :
    Along call Rises start calls ↔ Along call HasRoom start calls := by
  constructor
  · exact Along.mono (fun t c => hasRoom_of_rises)
  · intro hrooms
    have htopped : start.Topped := by simp [Topped, start]
    exact hrooms.imp (fun t c htop hroom => ⟨htop.call hroom, rises_of_hasRoom htop hroom⟩) htopped

-- A peer's stamp with a full counter, at a time the wall clock has not passed: the counter wraps
-- and the stamp returned is below the one observed.
theorem observe_goes_back :
    (⟨5, 4294967295⟩ : Hlc) < Hlc.MAX ∧ ¬Along call Rises start [.observe ⟨5, 4294967295⟩ 5] ∧
      (HlcClock.new.observe ⟨5, 4294967295⟩ 5).last = ⟨5, 0⟩ := by
  decide

end Ticking

end Skaidb.Storage
