import Mathlib.Tactic.Common

namespace Skaidb.Base

universe u v

variable {ε : Type u} {α β : Type v} {f : α → Except ε β}

theorem bind_eq_ok_iff : x >>= f = .ok b ↔ ∃ a, x = .ok a ∧ f a = .ok b := by
  cases x with
  | error e | ok a => simp [bind, Except.bind]

theorem pure_eq_ok_iff : (pure a : Except ε α) = .ok b ↔ a = b := by
  simp [pure, Except.pure]

variable {xs : List α}

theorem exists_mapM_eq_ok_iff : (∃ ys, xs.mapM f = .ok ys) ↔ ∀ x ∈ xs, ∃ y, f x = .ok y := by
  induction xs with
  | nil => simp [pure_eq_ok_iff]
  | cons x xs ih =>
    simp only [List.mapM_cons, bind_eq_ok_iff, pure_eq_ok_iff, List.forall_mem_cons, ← ih]
    constructor
    · rintro ⟨-, y, hy, ys, hys, -⟩
      exact ⟨⟨y, hy⟩, ys, hys⟩
    · rintro ⟨⟨y, hy⟩, ys, hys⟩
      exact ⟨_, y, hy, ys, hys, rfl⟩

theorem mapM_eq_ok_map (h : ∀ x ∈ xs, f x = .ok (g x)) : xs.mapM f = .ok (xs.map g) := by
  induction xs with
  | nil => rfl
  | cons x xs ih =>
    obtain ⟨hx, hxs⟩ := List.forall_mem_cons.mp h
    rw [List.mapM_cons, hx, ih hxs]
    rfl

theorem mapM_append_eq_ok_iff {ys : List α} : (xs ++ ys).mapM f = .ok zs ↔
      ∃ us, xs.mapM f = .ok us ∧ ∃ vs, ys.mapM f = .ok vs ∧ us ++ vs = zs := by
  simp only [List.mapM_append, bind_eq_ok_iff, pure_eq_ok_iff]

end Skaidb.Base
