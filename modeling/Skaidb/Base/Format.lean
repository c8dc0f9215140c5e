import Skaidb.Base.Reader

namespace Skaidb.Base

open Reader

-- The two directions of a code. What is `Ok` is read back from what is written of it, and
-- nothing else is ever read.
structure Format (σ ε : Type) where
  Val : Type
  put : Val → List σ
  read : Reader σ ε Val
  Ok : Val → Prop
  reads : ∀ a, Ok a → Reads read (put a) a
  yields : Yields read (fun a _ => Ok a)

namespace Format

variable {σ ε α : Type}

def unit : Format σ ε where
  Val := Unit
  put _ := []
  read := pure ()
  Ok _ := True
  reads a _ := Reads.pure a
  yields := Yields.pure trivial

def pair (f g : Format σ ε) : Format σ ε where
  Val := f.Val × g.Val
  put p := f.put p.1 ++ g.put p.2
  read := do
    let a ← f.read
    return (a, ← g.read)
  Ok p := f.Ok p.1 ∧ g.Ok p.2
  reads p h := (f.reads p.1 h.1).bind ((g.reads p.2 h.2).map (Prod.mk p.1))
  yields := f.yields.bind (fun _ _ ha => g.yields.map (fun _ _ hb => ⟨ha, hb⟩))

def fields : List (Format σ ε) → Format σ ε
  | [] => unit
  | [f] => f
  | f :: fs => f.pair (fields fs)

-- Another form of the values. What is read may be something that is never written.
def via (f : Format σ ε) (into : α → f.Val) (back : f.Val → α) (hback : ∀ a, back (into a) = a)
    (hinto : ∀ b, f.Ok b → f.Ok (into (back b))) : Format σ ε where
  Val := α
  put a := f.put (into a)
  read := do return back (← f.read)
  Ok a := f.Ok (into a)
  reads a h := by
    have hread := (f.reads (into a) h).map back
    rwa [hback] at hread
  yields := f.yields.map (fun b _ hb => hinto b hb)

-- A value of one of several formats, behind the code of the format.
def sum (code : α → List σ) (read : Reader σ ε α) (hreads : ∀ a, Reads read (code a) a)
    (hyields : Yields read (fun _ _ => True)) (arm : α → Format σ ε) : Format σ ε where
  Val := Σ a, (arm a).Val
  put v := code v.1 ++ (arm v.1).put v.2
  read := do
    let a ← read
    return ⟨a, ← (arm a).read⟩
  Ok v := (arm v.1).Ok v.2
  reads := fun ⟨a, b⟩ h =>
    (hreads a).bind (((arm a).reads b h).map (fun b : (arm a).Val => (⟨a, b⟩ : Σ a, (arm a).Val)))
  yields := hyields.bind (fun a _ _ => (arm a).yields.map (fun _ _ hb => hb))

def counted (putCount : Nat → List σ) (count : Reader σ ε Nat) (bound : Nat)
    (hreads : ∀ n, n < bound → Reads count (putCount n) n) (hyields : Yields count (fun n _ => n < bound))
    (f : Format σ ε) : Format σ ε where
  Val := List f.Val
  put as := putCount as.length ++ as.flatMap f.put
  read := do many f.read (← count)
  Ok as := as.length < bound ∧ ∀ a ∈ as, f.Ok a
  reads as h := (hreads _ h.1).bind (Reads.many as (fun a ha => f.reads a (h.2 a ha)))
  yields := hyields.bind (fun n _ hn => (Yields.many f.yields n).mono (fun _ _ has => ⟨has.1 ▸ hn, has.2⟩))

theorem decode_encode_iff (f : Format σ ε) (a : f.Val) : (f.read (f.put a)).map Prod.fst = .ok a ↔ f.Ok a :=
  map_fst_eq_iff f.reads f.yields

end Format

end Skaidb.Base
