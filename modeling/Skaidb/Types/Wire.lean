import Skaidb.Types.Acceptance

namespace Skaidb.Types.Wire

open Skaidb.Base Reader

-- The cursors of the wire formats. They differ in the errors they report.
section Readers

variable {α ε : Type} (eof : ε)

def take (n : Nat) : Reader UInt8 ε Bytes := fun ahead =>
  if n ≤ ahead.length then .ok (ahead.take n, ahead.drop n) else .error eof

def u8 : Reader UInt8 ε UInt8 := do return ((← take eof 1).headD 0)

def u16 : Reader UInt8 ε UInt16 := do return UInt16.ofNat (leNat (← take eof 2))

def u32 : Reader UInt8 ε UInt32 := do return UInt32.ofNat (leNat (← take eof 4))

def u64 : Reader UInt8 ε UInt64 := do return UInt64.ofNat (leNat (← take eof 8))

def bytes : Reader UInt8 ε Bytes := do take eof (← u32 eof).toNat

def string (bad : ε) : Reader UInt8 ε String := do
  match String.fromUTF8? ⟨(← bytes eof).toArray⟩ with
  | some s => return s
  | none => Reader.fail bad

def value (bad : ε) : Reader UInt8 ε Value := do
  match Value.decode (← bytes eof) with
  | .ok v => return v
  | .error _ => Reader.fail bad

def counted (x : Reader UInt8 ε α) : Reader UInt8 ε (List α) := do Reader.many x (← u32 eof).toNat

end Readers

def putCounted {α : Type} (put : α → Bytes) (as : List α) : Bytes := leBytes 4 as.length ++ as.flatMap put

def putStr (s : String) : Bytes := writeBytes (utf8 s)

def putValue (v : Value) : Bytes := writeBytes v.encode

def StrFits (s : String) : Prop := (utf8 s).length < 2 ^ 32
deriving Decidable

def ValueFits (v : Value) : Prop := v.Storable ∧ v.encode.length < 2 ^ 32
deriving Decidable

def ListFits {α : Type} (P : α → Prop) (as : List α) : Prop := as.length < 2 ^ 32 ∧ ∀ a ∈ as, P a

section Reading

variable {α ε : Type}

theorem reads_take (bs : Bytes) : Reads (take eof bs.length) bs bs := by
  intro rest
  simp [take]

theorem reads_u8 (b : UInt8) : Reads (u8 eof) [b] b := (reads_take [b]).map (fun bs => bs.headD 0)

private theorem reads_word {β : Type} (eof : ε) (width n : Nat) (h : n < 256 ^ width) (f : Nat → β) :
    Reads (do return f (leNat (← take eof width))) (leBytes width n) (f n) := by
  have hread : Reads (take eof _) _ _ := reads_take (leBytes width n)
  have hword := hread.map (fun bs => f (leNat bs))
  rwa [length_leBytes, leNat_leBytes, Nat.mod_eq_of_lt h] at hword

theorem reads_u16 (v : UInt16) : Reads (u16 eof) (leBytes 2 v.toNat) v := by
  have hread := reads_word eof 2 v.toNat v.toNat_lt UInt16.ofNat
  rwa [UInt16.ofNat_toNat] at hread

theorem reads_u32 (v : UInt32) : Reads (u32 eof) (leBytes 4 v.toNat) v := by
  have hread := reads_word eof 4 v.toNat v.toNat_lt UInt32.ofNat
  rwa [UInt32.ofNat_toNat] at hread

theorem reads_u64 {v : UInt64} : Reads (u64 eof) (leBytes 8 v.toNat) v := by
  have hread := reads_word eof 8 v.toNat v.toNat_lt UInt64.ofNat
  rwa [UInt64.ofNat_toNat] at hread

theorem reads_bytes {b : Bytes} (h : b.length < 2 ^ 32) : Reads (bytes eof) (writeBytes b) b := by
  have hcount : Reads (u32 eof) _ _ := reads_u32 (UInt32.ofNat b.length)
  rw [UInt32.toNat_ofNat_of_lt' h] at hcount
  refine hcount.bind ?_
  rw [UInt32.toNat_ofNat_of_lt' h]
  exact reads_take b

theorem reads_string (h : StrFits s) : Reads (string eof bad) (putStr s) s := by
  rw [putStr, ← List.append_nil (writeBytes _)]
  refine (reads_bytes h).bind ?_
  rw [fromUTF8?_utf8]
  exact Reads.pure s

theorem reads_value (h : ValueFits v) : Reads (value eof bad) (putValue v) v := by
  rw [putValue, ← List.append_nil (writeBytes _)]
  refine (reads_bytes h.2).bind ?_
  rw [Value.decode_encode h.1]
  exact Reads.pure v

theorem reads_counted (h : ListFits P as) (hx : ∀ a, P a → Reads x (put a) a) :
    Reads (counted eof x) (putCounted put as) as := by
  have hcount : Reads (u32 eof) _ _ := reads_u32 (UInt32.ofNat as.length)
  rw [UInt32.toNat_ofNat_of_lt' h.1] at hcount
  refine hcount.bind ?_
  rw [UInt32.toNat_ofNat_of_lt' h.1]
  exact Reads.many as (fun a ha => hx a (h.2 a ha))

end Reading

section Yielding

variable {α ε : Type}

theorem yields_take (n : Nat) : Yields (take eof n) (fun bs _ => bs.length = n) := by
  intro xs a rest h
  rw [take] at h
  by_cases hn : n ≤ xs.length
  · rw [if_pos hn] at h
    obtain ⟨rfl, rfl⟩ := Prod.mk.inj (Except.ok.inj h)
    exact ⟨n, by rw [List.length_drop]; omega, List.length_take_of_le hn⟩
  · rw [if_neg hn] at h
    cases h

theorem yields_word {β : Type} (width : Nat) (f : Bytes → β) :
    Yields (do return f (← take eof width)) (fun _ _ => True) :=
  (yields_take width).map (fun _ _ _ => trivial)

theorem yields_u8 : Yields (u8 eof) (fun _ _ => True) := yields_word 1 _

theorem yields_u16 : Yields (u16 eof) (fun _ _ => True) := yields_word 2 _

theorem yields_u32 : Yields (u32 eof) (fun _ _ => True) := yields_word 4 _

theorem yields_u64 : Yields (u64 eof) (fun _ _ => True) := yields_word 8 _

theorem yields_bytes : Yields (bytes eof) (fun b _ => b.length < 2 ^ 32) := by
  refine yields_u32.bind (fun n m _ => ?_)
  intro xs a rest h
  obtain ⟨k, hk, hlen⟩ := yields_take n.toNat xs a rest h
  exact ⟨k, hk, hlen.trans_lt n.toNat_lt⟩

theorem yields_string : Yields (string eof bad) (fun s _ => StrFits s) := by
  refine yields_bytes.bind (fun b m hb => ?_)
  cases hs : String.fromUTF8? ⟨b.toArray⟩ with
  | none => exact Yields.fail _ _
  | some s => exact Yields.pure (by rwa [StrFits, utf8_of_fromUTF8? hs])

theorem yields_value : Yields (value eof bad) (fun v _ => ValueFits v) := by
  refine yields_bytes.bind (fun b m hb => ?_)
  cases hv : Value.decode b with
  | error _ => exact Yields.fail _ _
  | ok v =>
    obtain ⟨hstore, hlen⟩ := Value.writable_of_decode hv
    exact Yields.pure ⟨hstore, Nat.lt_of_le_of_lt hlen hb⟩

theorem yields_counted (hx : Yields x (fun a _ => P a)) :
    Yields (counted eof x) (fun as _ => ListFits P as) := by
  refine yields_u32.bind (fun n m _ => ?_)
  intro xs as rest h
  obtain ⟨k, hk, hlen, has⟩ := Yields.many hx n.toNat xs as rest h
  exact ⟨k, hk, hlen.trans_lt n.toNat_lt, has⟩

end Yielding

end Skaidb.Types.Wire
