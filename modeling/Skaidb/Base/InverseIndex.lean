import Mathlib.Data.List.Basic
import Mathlib.Logic.Function.Basic

namespace Skaidb.Base

open Function

-- An inverted index: every row is filed under finitely many keys, and the index
-- leads from a key back to its row.
section

variable {κ ρ δ : Type*} (keys : δ → ρ → List κ)

def filed (row : Option δ) (r : ρ) : List κ := row.elim [] (fun d => keys d r)

@[simp] theorem filed_none : filed keys none r = [] := rfl

@[simp] theorem filed_some : filed keys (some d) r = keys d r := rfl

def Inverts (rows : ρ → Option δ) (index : κ → Option ρ) : Prop :=
  ∀ k r, index k = some r ↔ k ∈ filed keys (rows r) r

variable {keys}

theorem Inverts.empty : Inverts keys (fun _ => none) (fun _ : κ => (none : Option ρ)) := by
  intro k r
  simp

variable [BEq κ] [LawfulBEq κ] [DecidableEq ρ]

theorem Inverts.erase (h : Inverts keys rows index) (r : ρ) : Inverts keys (update rows r none)
      (fun k => if k ∈ filed keys (rows r) r then none else index k) := by
  intro k other
  by_cases heq : other = r
  · subst heq
    simp only [update_self, filed_none, List.not_mem_nil, iff_false]
    split_ifs with hk
    · exact nofun
    · exact fun hidx => hk ((h k other).mp hidx)
  · simp only [update_of_ne heq]
    split_ifs with hk
    · simp only [false_iff]
      exact fun hother => heq (Option.some_inj.mp (((h k other).mpr hother).symm.trans ((h k r).mpr hk)))
    · exact h k other

theorem Inverts.insert (h : Inverts keys rows index) (hfree : rows r = none)
    (hdisj : ∀ other, other ≠ r → (keys d r).Disjoint (filed keys (rows other) other)) :
    Inverts keys (update rows r (some d)) (fun k => if k ∈ keys d r then some r else index k) := by
  intro k other
  by_cases heq : other = r
  · subst heq
    simp only [update_self, filed_some]
    split_ifs with hk
    · simp [hk]
    · simp [h k other, hfree, hk]
  · simp only [update_of_ne heq]
    split_ifs with hk
    · simp only [Option.some_inj, Ne.symm heq, false_iff]
      exact hdisj other heq hk
    · exact h k other

-- Filing a row anew: first its old keys go, then the new ones come.
theorem Inverts.replace (h : Inverts keys rows index)
    (hdisj : ∀ other, other ≠ r → (keys d r).Disjoint (filed keys (rows other) other)) :
    Inverts keys (update rows r (some d)) (fun k => if k ∈ keys d r then some r
      else if k ∈ filed keys (rows r) r then none else index k) := by
  have hins := (h.erase r).insert (update_self ..) (by
    intro other hne
    rw [update_of_ne hne]
    exact hdisj other hne)
  rwa [update_idem] at hins

end

end Skaidb.Base
