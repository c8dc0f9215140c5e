import Skaidb.Base.Layers

namespace Skaidb.Base

-- Last writer wins: of all writes of a key the one with the highest stamp counts,
-- the one received last on a tie.
section

variable {κ σ ν : Type*} [DecidableEq κ] [LinearOrder σ]

-- The writes are listed last received first.
def lastWriter : List (κ × σ × ν) → Layer κ σ ν
  | [], _ => none
  | w :: ws, key => if key = w.1 then pick (some w.2) (lastWriter ws key) else lastWriter ws key

variable {ws : List (κ × σ × ν)}

theorem mem_of_lastWriter (h : lastWriter ws key = some v) : (key, v) ∈ ws := by
  induction ws with
  | nil => cases h
  | cons w ws ih =>
    rw [lastWriter] at h
    split_ifs at h with heq
    · subst heq
      rcases pick_eq_or (some w.2) (lastWriter ws w.1) with hp | hp
      · rw [hp] at h
        cases h
        exact List.mem_cons_self
      · exact List.mem_cons_of_mem _ (ih (hp ▸ h))
    · exact List.mem_cons_of_mem _ (ih h)

theorem le_lastWriter (h : (key, v) ∈ ws) : ∃ u, lastWriter ws key = some u ∧ v.1 ≤ u.1 := by
  induction ws with
  | nil => cases h
  | cons w ws ih =>
    rw [lastWriter]
    rcases List.mem_cons.mp h with rfl | h
    · rw [if_pos rfl]
      exact le_pick (.inl rfl)
    · obtain ⟨u, hu, hle⟩ := ih h
      split_ifs
      · obtain ⟨u', hu', hle'⟩ := le_pick (.inr hu)
        exact ⟨u', hu', hle.trans hle'⟩
      · exact ⟨u, hu, hle⟩

-- No two different writes of a key carry one stamp.
def Distinct (ws : List (κ × σ × ν)) : Prop :=
  ∀ u ∈ ws, ∀ w ∈ ws, u.1 = w.1 → u.2.1 = w.2.1 → u = w

theorem lastWriter_congr {ws' : List (κ × σ × ν)} (hd : Distinct ws)
    (h : ∀ w, w ∈ ws ↔ w ∈ ws') : lastWriter ws = lastWriter ws' := by
  funext key
  cases hw : lastWriter ws key with
  | none =>
    cases hw' : lastWriter ws' key with
    | none => rfl
    | some v =>
      obtain ⟨u, hu, -⟩ := le_lastWriter ((h _).mpr (mem_of_lastWriter hw'))
      rw [hw] at hu
      cases hu
  | some v =>
    have hv := mem_of_lastWriter hw
    obtain ⟨v', hw', hle⟩ := le_lastWriter ((h _).mp hv)
    have hv' := (h _).mpr (mem_of_lastWriter hw')
    obtain ⟨u, hu, hle'⟩ := le_lastWriter hv'
    rw [hw] at hu
    cases hu
    obtain ⟨-, rfl⟩ := Prod.ext_iff.mp (hd _ hv _ hv' rfl (le_antisymm hle hle'))
    exact hw'.symm

end

end Skaidb.Base
