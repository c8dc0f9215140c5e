import Mathlib.Data.List.Sort
import Mathlib.Data.List.Perm.Subperm

namespace Skaidb.Base

open List

variable {κ : Type*} [LinearOrder κ] {xs ys : List κ}

theorem countP_take_of_sorted (hs : xs.Pairwise (· ≤ ·)) :
    (xs.take k).countP (· ≤ bound) = min k (xs.countP (· ≤ bound)) := by
  induction xs generalizing k with
  | nil => simp
  | cons x xs ih =>
    obtain ⟨hhead, htail⟩ := pairwise_cons.mp hs
    cases k with
    | zero => simp
    | succ k =>
      rw [take_succ_cons, countP_cons, countP_cons, ih htail]
      by_cases hx : x ≤ bound
      · simp [hx]
      · have hnone : xs.countP (· ≤ bound) = 0 :=
          countP_eq_zero.mpr fun y hy => by simpa using (not_le.mp hx).trans_le (hhead y hy)
        simp [hx, hnone]

-- A sorted list is known by how many of its elements lie at or below each bound.
theorem eq_of_countP_le (hx : xs.Pairwise (· ≤ ·)) (hy : ys.Pairwise (· ≤ ·))
    (h : ∀ bound, xs.countP (· ≤ bound) = ys.countP (· ≤ bound)) : xs = ys := by
  have hhead : ∀ {x : κ} {xs ys : List κ}, (∀ y ∈ ys, x < y) → (x :: xs).countP (· ≤ x) ≠ ys.countP (· ≤ x) := by
    intro x xs ys hlt heq
    have hnone : ys.countP (· ≤ x) = 0 := countP_eq_zero.mpr fun y hy => by simpa using hlt y hy
    rw [countP_cons, hnone] at heq
    simp at heq
  induction xs generalizing ys with
  | nil =>
    cases ys with
    | nil => rfl
    | cons y ys => exact absurd (h y).symm (hhead (by simp))
  | cons x xs ih =>
    cases ys with
    | nil => exact absurd (h x) (hhead (by simp))
    | cons y ys =>
      obtain ⟨hx₁, hx₂⟩ := pairwise_cons.mp hx
      obtain ⟨hy₁, hy₂⟩ := pairwise_cons.mp hy
      have hxy : x = y := by
        rcases lt_trichotomy x y with hlt | heq | hgt
        · exact absurd (h x) (hhead (forall_mem_cons.mpr ⟨hlt, fun z hz => hlt.trans_le (hy₁ z hz)⟩))
        · exact heq
        · exact absurd (h y).symm (hhead (forall_mem_cons.mpr ⟨hgt, fun z hz => hgt.trans_le (hx₁ z hz)⟩))
      subst hxy
      rw [ih hx₂ hy₂ (fun bound => by simpa [countP_cons] using h bound)]

theorem countP_take_sort (xs : List κ) (bound : κ) :
    ((xs.insertionSort (· ≤ ·)).take k).countP (· ≤ bound) = min k (xs.countP (· ≤ bound)) := by
  rw [countP_take_of_sorted (xs.pairwise_insertionSort (· ≤ ·)), (xs.perm_insertionSort (· ≤ ·)).countP_eq]

-- The first `k` of a list, in order, are known by how many of its elements lie at or below
-- each bound, up to `k` of them.
theorem take_sort_eq_of_countP (h : ∀ bound, min k (xs.countP (· ≤ bound)) = min k (ys.countP (· ≤ bound))) :
    (xs.insertionSort (· ≤ ·)).take k = (ys.insertionSort (· ≤ ·)).take k := by
  refine eq_of_countP_le ((xs.pairwise_insertionSort (· ≤ ·)).sublist (take_sublist _ _))
    ((ys.pairwise_insertionSort (· ≤ ·)).sublist (take_sublist _ _)) (fun bound => ?_)
  rw [countP_take_sort, countP_take_sort, h bound]

theorem countP_le_of_nodup_map {α β : Type*} {p : α → Bool} {q : β → Bool} {xs : List α} {ys : List β} {f : α → β}
    (hnodup : (xs.map f).Nodup) (h : ∀ x ∈ xs, p x = true → f x ∈ ys ∧ q (f x) = true) :
    xs.countP p ≤ ys.countP q := by
  have hsub : (xs.filter p).map f ⊆ ys.filter q := by
    intro y hy
    obtain ⟨x, hx, rfl⟩ := mem_map.mp hy
    exact mem_filter.mpr (h x (mem_filter.mp hx).1 (mem_filter.mp hx).2)
  have hle := (subperm_of_subset (hnodup.sublist (filter_sublist.map f)) hsub).length_le
  rwa [length_map, ← countP_eq_length_filter, ← countP_eq_length_filter] at hle

end Skaidb.Base
