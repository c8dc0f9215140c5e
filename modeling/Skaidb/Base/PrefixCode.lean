import Mathlib.Data.List.Lex
import Mathlib.Data.List.Basic
import Mathlib.Order.Lattice
import Mathlib.Tactic.Common

namespace Skaidb.Base

open List

-- Words over an alphabet, and codes no word of which starts another. The proofs carry that
-- two words differ at a position inside both, which survives any continuation.

variable {α β : Type*}

theorem append_lt_append_left_iff [LinearOrder β] (p x y : List β) : p ++ x < p ++ y ↔ x < y := by
  induction p with
  | nil => rfl
  | cons a p ih => simpa [cons_lt_cons_iff] using ih

inductive Diverge : List β → List β → Prop where
  | head {a b : β} (h : a ≠ b) (r s : List β) : Diverge (a :: r) (b :: s)
  | cons (a : β) {x y : List β} (h : Diverge x y) : Diverge (a :: x) (a :: y)

namespace Diverge

variable {x y : List β}

theorem symm (h : Diverge x y) : Diverge y x := by
  induction h with
  | head hab r s => exact .head hab.symm s r
  | cons a _ ih => exact .cons a ih

theorem append (h : Diverge x y) (r s : List β) : Diverge (x ++ r) (y ++ s) := by
  induction h with
  | head hab r' s' => exact .head hab _ _
  | cons a _ ih => exact .cons a ih

theorem prepend (p : List β) (h : Diverge x y) : Diverge (p ++ x) (p ++ y) := by
  induction p with
  | nil => exact h
  | cons a p ih => exact .cons a ih

theorem not_isPrefix (h : Diverge x y) : ¬ x <+: y := by
  induction h with
  | head hab r s =>
    intro hp
    exact hab (cons_prefix_cons.mp hp).1
  | cons a _ ih =>
    intro hp
    exact ih (cons_prefix_cons.mp hp).2

theorem ne (h : Diverge x y) : x ≠ y := by
  intro heq
  exact h.not_isPrefix (heq ▸ prefix_rfl)

theorem append_lt_append_iff [LinearOrder β] (h : Diverge x y) : x ++ r < y ++ s ↔ x < y := by
  induction h with
  | head hab r' s' => simp [cons_lt_cons_iff, hab]
  | cons a _ ih => simpa [cons_lt_cons_iff] using ih

end Diverge

def Apart (f : α → List β) (xs ys : List α) : Prop :=
  ∀ u ∈ xs, ∀ v ∈ ys, u ≠ v → Diverge (f u) (f v)

namespace Apart

variable {f : α → List β} {xs ys : List α}

theorem tail (h : Apart f (u :: xs) (v :: ys)) : Apart f xs ys :=
  fun a ha b hb => h a (by simp [ha]) b (by simp [hb])

theorem head (h : Apart f (u :: xs) (v :: ys)) (huv : u ≠ v) : Diverge (f u) (f v) :=
  h u (by simp) v (by simp) huv

theorem flatMap (h : Apart f xs ys) (hlen : xs.length = ys.length) (hne : xs ≠ ys) :
    Diverge (xs.flatMap f) (ys.flatMap f) := by
  induction xs generalizing ys with
  | nil => exact absurd (length_eq_zero_iff.mp hlen.symm).symm hne
  | cons u xs ih =>
    cases ys with
    | nil => simp at hlen
    | cons v ys =>
      by_cases huv : u = v
      · subst huv
        refine (ih h.tail (by simpa using hlen) ?_).prepend (f u)
        intro hxy
        exact hne (by rw [hxy])
      · exact (h.head huv).append _ _

theorem terminated (h : Apart f xs ys) (hx : ∀ u ∈ xs, Diverge (f u) stop)
    (hy : ∀ v ∈ ys, Diverge (f v) stop) (hne : xs ≠ ys) :
    Diverge (xs.flatMap f ++ stop) (ys.flatMap f ++ stop) := by
  induction xs generalizing ys with
  | nil =>
    cases ys with
    | nil => exact absurd rfl hne
    | cons v ys =>
      have hstop := ((hy v (by simp)).append (ys.flatMap f ++ stop) []).symm
      simpa using hstop
  | cons u xs ih =>
    cases ys with
    | nil =>
      have hstop := (hx u (by simp)).append (xs.flatMap f ++ stop) []
      simpa using hstop
    | cons v ys =>
      rw [flatMap_cons, flatMap_cons, append_assoc, append_assoc]
      by_cases huv : u = v
      · subst huv
        refine (ih h.tail (fun w hw => hx w (by simp [hw])) (fun w hw => hy w (by simp [hw]))
          ?_).prepend (f u)
        intro hxy
        exact hne (by rw [hxy])
      · exact (h.head huv).append _ _

-- The order of concatenated words is the lexicographic order of the words.
theorem flatMap_lt_iff [LinearOrder β] (h : Apart f xs ys) (hlen : xs.length = ys.length) :
    xs.flatMap f < ys.flatMap f ↔ xs.map f < ys.map f := by
  induction xs generalizing ys with
  | nil =>
    obtain rfl := length_eq_zero_iff.mp hlen.symm
    simp
  | cons u xs ih =>
    cases ys with
    | nil => simp at hlen
    | cons v ys =>
      rw [flatMap_cons, flatMap_cons, map_cons, map_cons,
        cons_lt_cons_iff]
      by_cases huv : u = v
      · subst huv
        rw [append_lt_append_left_iff, ih h.tail (by simpa using hlen)]
        simp
      · have hdiv := h.head huv
        rw [hdiv.append_lt_append_iff]
        simp [hdiv.ne]

end Apart

theorem Diverge.of_length_eq {x y : List β} (hlen : x.length = y.length) (hne : x ≠ y) : Diverge x y := by
  simpa using Apart.flatMap (f := fun b => [b]) (fun _ _ _ _ huv => .head huv [] []) hlen hne

end Skaidb.Base
