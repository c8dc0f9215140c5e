import Mathlib.Tactic.Common

namespace Skaidb.Base

open List

abbrev Reader (σ ε α : Type) := StateT (List σ) (Except ε) α

namespace Reader

variable {σ ε α β : Type}

def fail (e : ε) : Reader σ ε α := fun _ => .error e

def many (x : Reader σ ε α) : Nat → Reader σ ε (List α)
  | 0 => pure []
  | n + 1 => do
      let a ← x
      return a :: (← many x n)

-- The reader takes exactly these symbols, whatever follows, and makes `a` of them.
def Reads (x : Reader σ ε α) (xs : List σ) (a : α) : Prop := ∀ rest, x (xs ++ rest) = .ok (a, rest)

theorem Reads.pure (a : α) : Reads (Pure.pure a : Reader σ ε α) [] a := fun _ => rfl

variable {f : α → Reader σ ε β}

theorem Reads.bind {xs ys : List σ} {b : β}
    (hx : Reads x xs a) (hf : Reads (f a) ys b) : Reads (x >>= f) (xs ++ ys) b := by
  intro rest
  rw [append_assoc]
  show (do let p ← x (xs ++ (ys ++ rest)); f p.1 p.2 : Except ε _) = _
  rw [hx]
  exact hf rest

theorem Reads.map {xs : List σ} (hx : Reads x xs a) (f : α → β) : Reads (do return f (← x)) xs (f a) := by
  have h := hx.bind (f := fun a => Pure.pure (f a)) (Reads.pure (f a))
  rwa [append_nil] at h

theorem Reads.many {write : α → List σ} (as : List α)
    (h : ∀ a ∈ as, Reads x (write a) a) : Reads (many x as.length) (as.flatMap write) as := by
  induction as with
  | nil => exact Reads.pure []
  | cons a as ih =>
    obtain ⟨ha, has⟩ := forall_mem_cons.mp h
    rw [flatMap_cons]
    exact ha.bind ((ih has).map (fun as => a :: as))

-- Where the first reader succeeds, the second makes the same of it and of anything longer.
def Extends (x y : Reader σ ε α) : Prop :=
  ∀ xs a rest, x xs = .ok (a, rest) → ∀ more, y (xs ++ more) = .ok (a, rest ++ more)

theorem Extends.pure (a : α) : Extends (Pure.pure a : Reader σ ε α) (Pure.pure a) := by
  intro xs b rest h more
  obtain ⟨rfl, rfl⟩ := Prod.mk.inj (Except.ok.inj h)
  rfl

theorem Extends.fail (e : ε) (y : Reader σ ε α) : Extends (Reader.fail e) y := by
  intro xs a rest h
  cases h

theorem Extends.bind {y : Reader σ ε α} {g : α → Reader σ ε β} (hxy : Extends x y)
    (hfg : ∀ a, Extends (f a) (g a)) : Extends (x >>= f) (y >>= g) := by
  intro xs b rest h more
  have hbind : (do let p ← x xs; f p.1 p.2) = .ok (b, rest) := h
  show (do let p ← y (xs ++ more); g p.1 p.2) = _
  cases hx : x xs with
  | error e =>
    rw [hx] at hbind
    cases hbind
  | ok p =>
    rw [hx] at hbind
    rw [hxy xs p.1 p.2 hx more]
    exact hfg p.1 p.2 b rest hbind more

theorem Extends.map {y : Reader σ ε α} (hxy : Extends x y) (f : α → β) :
    Extends (do return f (← x)) (do return f (← y)) :=
  hxy.bind (fun a => Extends.pure (f a))

-- Whatever the reader makes has `P`, together with the number of symbols it took.
def Yields (x : Reader σ ε α) (P : α → Nat → Prop) : Prop :=
  ∀ xs a rest, x xs = .ok (a, rest) → ∃ n, n + rest.length = xs.length ∧ P a n

theorem Yields.pure (h : P a 0) : Yields (Pure.pure a : Reader σ ε α) P := by
  intro xs b rest hread
  obtain ⟨rfl, rfl⟩ := Prod.mk.inj (Except.ok.inj hread)
  exact ⟨0, Nat.zero_add _, h⟩

theorem Yields.fail (e : ε) (P : α → Nat → Prop) : Yields (Reader.fail e : Reader σ ε α) P := by
  intro xs a rest hread
  cases hread

theorem Yields.mono (hx : Yields x P) (h : ∀ a n, P a n → Q a n) : Yields x Q := by
  intro xs a rest hread
  obtain ⟨n, hn, ha⟩ := hx xs a rest hread
  exact ⟨n, hn, h a n ha⟩

theorem Yields.bind {Q : β → Nat → Prop}
    (hx : Yields x P) (hf : ∀ a m, P a m → Yields (f a) (fun b n => Q b (m + n))) : Yields (x >>= f) Q := by
  intro xs b rest hread
  have hbind : (do let p ← x xs; f p.1 p.2) = .ok (b, rest) := hread
  cases hp : x xs with
  | error e =>
    rw [hp] at hbind
    cases hbind
  | ok p =>
    rw [hp] at hbind
    obtain ⟨m, hm, ha⟩ := hx xs p.1 p.2 hp
    obtain ⟨n, hn, hb⟩ := hf p.1 m ha p.2 b rest hbind
    exact ⟨m + n, by omega, hb⟩

theorem Yields.map {Q : β → Nat → Prop} (hx : Yields x P) {f : α → β}
    (hf : ∀ a n, P a n → Q (f a) n) : Yields (do return f (← x)) Q :=
  hx.bind (fun a m ha => Yields.pure (hf a m ha))

theorem Yields.many {P : α → Prop} (hx : Yields x (fun a _ => P a)) (n : Nat) :
    Yields (Reader.many x n) (fun as _ => as.length = n ∧ ∀ a ∈ as, P a) := by
  induction n with
  | zero => exact Yields.pure ⟨rfl, by simp⟩
  | succ n ih =>
    refine hx.bind (fun a _ ha => ih.map (fun as _ has => ⟨?_, ?_⟩))
    · rw [length_cons, has.1]
    · exact forall_mem_cons.mpr ⟨ha, has.2⟩

theorem map_fst_eq_iff {put : α → List σ} {P : α → Prop} (hreads : ∀ a, P a → Reads x (put a) a)
    (hyields : Yields x (fun a _ => P a)) : (x (put a)).map Prod.fst = .ok a ↔ P a := by
  constructor
  · intro h
    cases hx : x (put a) with
    | error e =>
      rw [hx] at h
      cases h
    | ok p =>
      rw [hx] at h
      obtain ⟨n, -, hp⟩ := hyields (put a) p.1 p.2 hx
      exact Except.ok.inj h ▸ hp
  · intro h
    have hx := hreads a h []
    rw [append_nil] at hx
    rw [hx]
    rfl

end Reader

end Skaidb.Base
